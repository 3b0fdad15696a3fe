import Jstd.OwningGraph.Runs

/-!
# merge_nodes — what merging two nodes does to the edges

The default method of `GraphMut`, at `OwningGraph`.  It edits incident sets and edge records through
separate handles; `mergeNodes_spec` says what each of them is afterwards.

The record of the direct edge stays, in no incident set.  An edge from the removed node to itself
loses the one entry that stood for both its ends; without such edges both directions of traversal
are rewired as they should be.
-/

namespace Jstd
namespace OwningGraph

open Foundation

variable {NodeId EdgeId NodeData EdgeData : Type} [DecidableEq NodeId] [DecidableEq EdgeId]

/-! ## As the source does it -/

/-- `self.get_node(node).unwrap()`, or `get_node_mut`. -/
def getNode (node : NodeId) : Method Panic (OwningGraph NodeId EdgeId NodeData EdgeData) Unit := do
  let self ← get
  let _ ← unwrap (self.nodeData.get? node)
  pure ()

/-- `self.get_edge_mut(edge).unwrap()`. -/
def getEdge (edge : EdgeId) : Method Panic (OwningGraph NodeId EdgeId NodeData EdgeData) Unit := do
  let self ← get
  let _ ← unwrap (self.edgeData.get? edge)
  pure ()

/-- `EdgeMut::set_from`. -/
def setFrom (edge : EdgeId) (node : NodeId) :
    Method Panic (OwningGraph NodeId EdgeId NodeData EdgeData) Unit := do
  let self ← get
  let raw ← unwrap (self.edges.get? edge)
  modify fun self => { self with edges := self.edges.insert edge { raw with fromId := node } }

/-- The body of the last loop. -/
def rehome (keep remove : NodeId) (eid : EdgeId) :
    Method Panic (OwningGraph NodeId EdgeId NodeData EdgeData) Unit := do
  getEdge eid
  setFrom eid keep
  getNode keep
  addEdgeId keep eid
  getNode remove
  removeEdgeId remove eid

/-- `merge_nodes`; `order` is the order in which the incident set of `remove` yields its ids. -/
def mergeNodes (order : HashOrder EdgeId) (keep remove : NodeId) (directEdge : EdgeId) :
    Method Panic (OwningGraph NodeId EdgeId NodeData EdgeData) Unit := do
  getNode keep
  removeEdgeId keep directEdge
  getNode remove
  removeEdgeId remove directEdge
  getNode remove
  let self ← get
  let outgoing ← children order self remove
  Method.forEach (rehome keep remove) (outgoing.map EdgeItem.edge)

/-! ## Graphs whose maps are in step -/

/-- The part of consistency that is about the four maps. -/
structure Linked (g : OwningGraph NodeId EdgeId NodeData EdgeData) : Prop where
  node_keys : g.nodes.keys = g.nodeData.keys
  edge_keys : g.edges.keys = g.edgeData.keys
  /-- An edge is in the incident set of a node if and only if it is live and the node is one of its
  endpoints. -/
  incident_iff : ∀ (n : NodeId) (e : EdgeId), e ∈ incident g.nodes n ↔
    ∃ edge, g.edges.get? e = some edge ∧ (n = edge.fromId ∨ n = edge.toId)

variable {g : OwningGraph NodeId EdgeId NodeData EdgeData}

theorem Consistent.linked [Identifier NodeId] [Identifier EdgeId] (hg : g.Consistent) :
    g.Linked :=
  ⟨hg.node_keys, hg.edge_keys, hg.incident_iff⟩

theorem Linked.endpoints (hg : g.Linked) {e : EdgeId} {edge : RawEdge NodeId}
    (he : g.edges.get? e = some edge) :
    edge.fromId ∈ g.nodes.keys ∧ edge.toId ∈ g.nodes.keys :=
  ⟨mem_keys_of_incident ((hg.incident_iff edge.fromId e).2 ⟨edge, he, .inl rfl⟩),
    mem_keys_of_incident ((hg.incident_iff edge.toId e).2 ⟨edge, he, .inr rfl⟩)⟩

/-! ## What each step does -/

omit [DecidableEq EdgeId] in
theorem getNode_run {n : NodeId} (hn : n ∈ g.nodeData.keys) : (getNode n).run g = (.ok (), g) := by
  obtain ⟨data, hdata⟩ := HashMap.exists_of_mem_keys hn
  simp only [getNode, Method.run_bind_get, hdata, unwrap, Method.run_bind_liftM_ok,
    Method.run_pure]

omit [DecidableEq NodeId] in
theorem getEdge_run {e : EdgeId} (he : e ∈ g.edgeData.keys) : (getEdge e).run g = (.ok (), g) := by
  obtain ⟨data, hdata⟩ := HashMap.exists_of_mem_keys he
  simp only [getEdge, Method.run_bind_get, hdata, unwrap, Method.run_bind_liftM_ok,
    Method.run_pure]

/-- The record of an edge that left `remove`. -/
def moved (keep remove : NodeId) (edge : RawEdge NodeId) : RawEdge NodeId :=
  if edge.fromId = remove then { edge with fromId := keep } else edge

/-- One edge changes its source, joins one incident set and leaves another. -/
theorem rehome_spec (keep remove : NodeId) (hnode : g.nodes.keys = g.nodeData.keys)
    (hedge : g.edges.keys = g.edgeData.keys) (hkeep : keep ∈ g.nodes.keys)
    (hremove : remove ∈ g.nodes.keys) {e : EdgeId} {edge : RawEdge NodeId}
    (he : g.edges.get? e = some edge) :
    ∃ nodes, (rehome keep remove e).run g =
        (.ok (), { g with edges := g.edges.insert e { edge with fromId := keep }, nodes := nodes }) ∧
      nodes.keys = g.nodes.keys ∧
      ∀ n e', e' ∈ incident nodes n ↔
        (e' ∈ incident g.nodes n ∨ n = keep ∧ e' = e) ∧ ¬ (n = remove ∧ e' = e) := by
  have hlive : e ∈ g.edgeData.keys := by
    rw [← hedge]
    exact HashMap.mem_keys_of_get? he
  -- `keep` gains the edge before `remove` loses it, as in the source.
  obtain ⟨nodes, hadd, hkeys, hinc⟩ := addEdgeId_spec
    (g := { g with edges := g.edges.insert e { edge with fromId := keep } }) hkeep e
  obtain ⟨nodes', hdel, hkeys', hinc'⟩ := removeEdgeId_spec
    (g := { g with edges := g.edges.insert e { edge with fromId := keep }, nodes := nodes })
    (show remove ∈ nodes.keys by rw [hkeys]; exact hremove) e
  refine ⟨nodes', ?_, hkeys'.trans hkeys, ?_⟩
  · rw [rehome, Method.run_bind_of_ok (getEdge_run hlive)]
    have hset : (setFrom e keep).run g =
        (.ok (), { g with edges := g.edges.insert e { edge with fromId := keep } }) := by
      simp only [setFrom, Method.run_bind_get, he, unwrap, Method.run_bind_liftM_ok,
        Method.run_modify]
    rw [Method.run_bind_of_ok hset, Method.run_bind_of_ok (getNode_run (by rwa [← hnode])),
      Method.run_bind_of_ok hadd, Method.run_bind_of_ok (getNode_run (by rwa [← hnode]))]
    exact hdel
  · intro n e'
    rw [hinc', hinc]

/-- The state after a merge: every edge that left `remove` leaves `keep` instead, and the incident
sets have forgotten the direct edge and whatever `remove` had as a source. -/
structure Merged (g : OwningGraph NodeId EdgeId NodeData EdgeData) (keep remove : NodeId)
    (directEdge : EdgeId) (g' : OwningGraph NodeId EdgeId NodeData EdgeData) : Prop where
  nodeData : g'.nodeData = g.nodeData
  edgeData : g'.edgeData = g.edgeData
  node_keys : g'.nodes.keys = g.nodes.keys
  edges : ∀ e, g'.edges.get? e = (g.edges.get? e).map (moved keep remove)
  incident_iff : ∀ n e, e ∈ incident g'.nodes n ↔ e ≠ directEdge ∧
    ∃ edge, g.edges.get? e = some edge ∧
      if edge.fromId = remove then n ≠ remove ∧ (n = keep ∨ n = edge.toId)
      else n = edge.fromId ∨ n = edge.toId

/-- Merging along a live edge between two nodes goes through. -/
theorem mergeNodes_spec (hg : g.Linked) {keep remove : NodeId} {directEdge : EdgeId}
    (hdirect : g.edges.get? directEdge = some { fromId := keep, toId := remove })
    (hne : keep ≠ remove) (order : HashOrder EdgeId) :
    ∃ g', (mergeNodes order keep remove directEdge).run g = (.ok (), g') ∧
      Merged g keep remove directEdge g' := by
  obtain ⟨hkeep, hremove⟩ := hg.endpoints hdirect
  obtain ⟨nodes₁, hrun₁, nodes₂, hrun₂, hkeys₂, hinc₂⟩ := unlink_spec hkeep hremove directEdge
  -- The two removals together take the direct edge out of every incident set.
  have hinc : ∀ n e, e ∈ incident nodes₂ n ↔ e ≠ directEdge ∧
      ∃ edge, g.edges.get? e = some edge ∧ (n = edge.fromId ∨ n = edge.toId) := by
    intro n e
    rw [hinc₂, hg.incident_iff]
    constructor
    · rintro ⟨⟨edge, hedge, hend⟩, hnot⟩
      refine ⟨?_, edge, hedge, hend⟩
      rintro rfl
      rw [hdirect] at hedge
      cases hedge
      exact hnot ⟨hend, rfl⟩
    · rintro ⟨hnot, hexists⟩
      exact ⟨hexists, fun h => hnot h.2⟩
  obtain ⟨items, hchildren, hnodup, hitems⟩ := children_lists
    (g := { g with nodes := nodes₂ }) order
    (show remove ∈ nodes₂.keys by rw [hkeys₂]; exact hremove)
    (fun e he => ((hinc remove e).1 he).2.imp fun _ h => h.1)
  have houtgoing : ∀ e, e ∈ items.map EdgeItem.edge ↔
      ∃ v, g.edges.get? e = some { fromId := remove, toId := v } := by
    intro e
    rw [List.mem_map]
    constructor
    · rintro ⟨⟨e, v⟩, hmem, rfl⟩
      exact ⟨v, ((hitems e v).1 hmem).2⟩
    · rintro ⟨v, hedge⟩
      refine ⟨⟨e, v⟩, (hitems e v).2 ⟨(hinc remove e).2 ⟨?_, _, hedge, .inl rfl⟩, hedge⟩, rfl⟩
      rintro rfl
      rw [hdirect] at hedge
      cases hedge
      exact hne rfl
  obtain ⟨g', hloop, hdata, hedgeData, hkeys, hedgeKeys, hedges, hinc'⟩ := Method.forEach_induction
    (rehome keep remove)
    (fun done (s : OwningGraph NodeId EdgeId NodeData EdgeData) =>
      s.nodeData = g.nodeData ∧ s.edgeData = g.edgeData ∧ s.nodes.keys = g.nodes.keys ∧
        s.edges.keys = g.edges.keys ∧
        (∀ e, s.edges.get? e =
          if e ∈ done then (g.edges.get? e).map (moved keep remove) else g.edges.get? e) ∧
        ∀ n e, e ∈ incident s.nodes n ↔
          if e ∈ done then n ≠ remove ∧ (n = keep ∨ e ∈ incident nodes₂ n)
          else e ∈ incident nodes₂ n)
    (items.map EdgeItem.edge) (s := { g with nodes := nodes₂ })
    ⟨rfl, rfl, hkeys₂, rfl, by simp, by simp⟩ (by
      rintro done e rest s hsplit ⟨hdata, hedgeData, hkeys, hedgeKeys, hedges, hinc⟩
      have hdone : e ∉ done := by
        rw [hsplit] at hnodup
        intro hmem
        exact (List.nodup_append.1 hnodup).2.2 e hmem e List.mem_cons_self rfl
      obtain ⟨v, hedge⟩ := (houtgoing e).1 (by rw [hsplit]; simp)
      obtain ⟨nodes, hrun, hkeys', hinc'⟩ := rehome_spec (g := s) keep remove
        (by rw [hkeys, hdata, hg.node_keys])
        (by rw [hedgeKeys, hedgeData, hg.edge_keys]) (by rw [hkeys]; exact hkeep)
        (by rw [hkeys]; exact hremove) (show s.edges.get? e = some ⟨remove, v⟩ by
          rw [hedges, if_neg hdone, hedge])
      refine ⟨_, hrun, hdata, hedgeData, hkeys'.trans hkeys, ?_, ?_, ?_⟩
      · show (s.edges.insert _ _).keys = _
        rw [HashMap.keys_insert, ← hedgeKeys, Finset.insert_eq_of_mem]
        rw [hedgeKeys]
        exact HashMap.mem_keys_of_get? hedge
      · intro e'
        show (s.edges.insert _ _).get? e' = _
        rw [HashMap.get?_insert, hedges]
        by_cases heq : e' = e
        · subst heq
          simp [hedge, moved]
        · simp only [heq, if_false, List.mem_append, List.mem_singleton, or_false]
      · intro n e'
        rw [hinc', hinc]
        by_cases heq : e' = e
        · subst heq
          simp only [hdone, if_false, and_true, List.mem_append, List.mem_singleton, or_true,
            if_true]
          tauto
        · simp only [heq, List.mem_append, List.mem_singleton, or_false, and_false, not_false_eq_true,
            and_true])
  refine ⟨g', ?_, hdata, hedgeData, hkeys, ?_, ?_⟩
  · have hremoveData : remove ∈ g.nodeData.keys := by rwa [← hg.node_keys]
    rw [mergeNodes, Method.run_bind_of_ok (getNode_run (by rwa [← hg.node_keys])),
      Method.run_bind_of_ok hrun₁,
      Method.run_bind_of_ok (getNode_run (g := { g with nodes := nodes₁ }) hremoveData),
      Method.run_bind_of_ok hrun₂,
      Method.run_bind_of_ok (getNode_run (g := { g with nodes := nodes₂ }) hremoveData),
      Method.run_bind_get]
    simp only [hchildren, Method.run_bind_liftM_ok]
    exact hloop
  · intro e
    rw [hedges]
    split
    · rfl
    · rename_i hnot
      cases hedge : g.edges.get? e with
      | none => rfl
      | some edge =>
          have hfrom : edge.fromId ≠ remove := by
            rintro rfl
            exact hnot ((houtgoing e).2 ⟨edge.toId, hedge⟩)
          rw [Option.map_some, moved, if_neg hfrom]
  · intro n e
    rw [hinc', hinc]
    by_cases hmem : e ∈ items.map EdgeItem.edge
    · obtain ⟨v, hedge⟩ := (houtgoing e).1 hmem
      have hnot : e ≠ directEdge := by
        rintro rfl
        rw [hdirect] at hedge
        cases hedge
        exact hne rfl
      simp only [hmem, if_true, hedge, Option.some.injEq, exists_eq_left', hnot, ne_eq,
        not_false_eq_true, true_and]
      tauto
    · rw [if_neg hmem]
      refine and_congr_right fun _ => exists_congr fun edge => and_congr_right fun hedge => ?_
      have hfrom : edge.fromId ≠ remove := by
        rintro rfl
        exact hmem ((houtgoing e).2 ⟨edge.toId, hedge⟩)
      rw [if_neg hfrom]

/-! ## What is left in the sets -/

/-- Every edge `get_edge` returns is in the incident sets of both its endpoints. -/
def NoDangling (g : OwningGraph NodeId EdgeId NodeData EdgeData) : Prop :=
  ∀ e edge, g.IsEdge e → g.edges.get? e = some edge →
    e ∈ incident g.nodes edge.fromId ∧ e ∈ incident g.nodes edge.toId

/-- Every edge `get_edge` returns runs between nodes `get_node` returns. -/
def EndpointsLive (g : OwningGraph NodeId EdgeId NodeData EdgeData) : Prop :=
  ∀ e edge, g.IsEdge e → g.edges.get? e = some edge → g.IsNode edge.fromId ∧ g.IsNode edge.toId

section

variable {keep remove : NodeId} {directEdge : EdgeId}
  {g' : OwningGraph NodeId EdgeId NodeData EdgeData}

omit [DecidableEq NodeId] in
theorem Linked.isEdge [DecidableEq NodeId] (hg : g.Linked) {e : EdgeId} {edge : RawEdge NodeId}
    (he : g.edges.get? e = some edge) : g.IsEdge e := by
  rw [IsEdge, ← hg.edge_keys]
  exact HashMap.mem_keys_of_get? he

/-- An edge after the merge, and the edge it was. -/
theorem Merged.exists_edge (h : Merged g keep remove directEdge g') {e : EdgeId}
    {edge : RawEdge NodeId} (he : g'.edges.get? e = some edge) :
    ∃ old, g.edges.get? e = some old ∧ moved keep remove old = edge := by
  rw [h.edges, Option.map_eq_some_iff] at he
  exact he

theorem Merged.mem_incident (h : Merged g keep remove directEdge g') {e : EdgeId}
    {old : RawEdge NodeId} (hold : g.edges.get? e = some old) (n : NodeId) :
    e ∈ incident g'.nodes n ↔ e ≠ directEdge ∧
      if old.fromId = remove then n ≠ remove ∧ (n = keep ∨ n = old.toId)
      else n = old.fromId ∨ n = old.toId := by
  rw [h.incident_iff]
  simp only [hold, Option.some.injEq, exists_eq_left']

/-- The merge loses the direct edge, and half of every edge from `remove` to itself. -/
theorem Merged.mem_both_iff (h : Merged g keep remove directEdge g') (hne : keep ≠ remove)
    {e : EdgeId} {edge : RawEdge NodeId} (he : g'.edges.get? e = some edge) :
    e ∈ incident g'.nodes edge.fromId ∧ e ∈ incident g'.nodes edge.toId ↔
      e ≠ directEdge ∧ g.edges.get? e ≠ some { fromId := remove, toId := remove } := by
  obtain ⟨⟨u, v⟩, hold, rfl⟩ := h.exists_edge he
  rw [h.mem_incident hold, h.mem_incident hold, hold, ne_eq (some _), Option.some.injEq]
  unfold moved
  split
  · -- The edge left `remove`; its source is now `keep`, its target may still be `remove`.
    rename_i hu
    change u = remove at hu
    subst hu
    rw [RawEdge.mk.injEq]
    constructor
    · rintro ⟨-, hdirect, hv, -⟩
      exact ⟨hdirect, fun heq => hv heq.2⟩
    · rintro ⟨hdirect, hloop⟩
      exact ⟨⟨hdirect, hne, .inl rfl⟩, hdirect, fun hv => hloop ⟨rfl, hv⟩, .inr rfl⟩
  · rename_i hu
    constructor
    · rintro ⟨⟨hdirect, -⟩, -⟩
      refine ⟨hdirect, ?_⟩
      intro heq
      cases heq
      exact hu rfl
    · rintro ⟨hdirect, -⟩
      exact ⟨⟨hdirect, .inl rfl⟩, hdirect, .inr rfl⟩

theorem Merged.direct (h : Merged g keep remove directEdge g') (hne : keep ≠ remove)
    (hdirect : g.edges.get? directEdge = some { fromId := keep, toId := remove }) :
    g'.edges.get? directEdge = some { fromId := keep, toId := remove } := by
  rw [h.edges, hdirect, Option.map_some, moved, if_neg hne]

theorem Merged.not_noDangling (h : Merged g keep remove directEdge g') (hg : g.Linked)
    (hne : keep ≠ remove)
    (hdirect : g.edges.get? directEdge = some { fromId := keep, toId := remove }) :
    ¬ g'.NoDangling := by
  intro hno
  have hlive : g'.IsEdge directEdge := by
    rw [IsEdge, h.edgeData]
    exact hg.isEdge hdirect
  have hedge := h.direct hne hdirect
  exact ((h.mem_both_iff hne hedge).1 (hno _ _ hlive hedge)).1 rfl

/-- Removing the node afterwards does not find the direct edge. -/
theorem Merged.removeNode (h : Merged g keep remove directEdge g') (hg : g.Linked)
    (hne : keep ≠ remove)
    (hdirect : g.edges.get? directEdge = some { fromId := keep, toId := remove })
    (order : HashOrder EdgeId) :
    ∃ g'', (removeNode order remove).run g' = (.ok (), g'') ∧ ¬ g''.EndpointsLive := by
  obtain ⟨hkeep, hremove⟩ := hg.endpoints hdirect
  obtain ⟨g'', hrun, -, hdata, hleft, hleft', -⟩ := removeNode_spec order (g := g') (n := remove)
    (by rw [h.node_keys]; exact hremove) (by
      intro e he
      obtain ⟨-, ⟨u, v⟩, hold, -⟩ := (h.incident_iff remove e).1 he
      refine ⟨_, by rw [h.edges, hold, Option.map_some], ?_⟩
      obtain ⟨hu, hv⟩ := hg.endpoints hold
      rw [h.node_keys]
      unfold moved
      split
      · exact ⟨hkeep, hv⟩
      · exact ⟨hu, hv⟩)
  refine ⟨g'', hrun, ?_⟩
  intro hends
  have hnot : directEdge ∉ incident g'.nodes remove := by
    intro hmem
    exact ((h.incident_iff remove directEdge).1 hmem).1 rfl
  have hlive : g''.IsEdge directEdge := by
    refine (hleft' directEdge).2 ⟨?_, hnot⟩
    rw [h.edgeData]
    exact hg.isEdge hdirect
  have hdead := (hends directEdge _ hlive (by
    rw [hleft, if_neg hnot, h.direct hne hdirect])).2
  rw [IsNode, hdata, HashMap.keys_remove] at hdead
  exact Finset.notMem_erase remove _ hdead

end

/-- The merge always leaves the direct edge behind: `get_edge` returns it, but it is in no incident
set, so removing the merged node leaves it with a dead end.  The edges in the sets of both their
endpoints are the others, without those from `remove` to itself. -/
theorem mergeNodes_dangling (hg : g.Linked) {keep remove : NodeId} {directEdge : EdgeId}
    (hdirect : g.edges.get? directEdge = some { fromId := keep, toId := remove })
    (hne : keep ≠ remove) (order : HashOrder EdgeId) :
    ∃ g', (mergeNodes order keep remove directEdge).run g = (.ok (), g') ∧
      ¬ g'.NoDangling ∧
      (∀ e edge, g'.edges.get? e = some edge →
        (e ∈ incident g'.nodes edge.fromId ∧ e ∈ incident g'.nodes edge.toId ↔
          e ≠ directEdge ∧ g.edges.get? e ≠ some { fromId := remove, toId := remove })) ∧
      ∀ order' : HashOrder EdgeId,
        ∃ g'', (removeNode order' remove).run g' = (.ok (), g'') ∧ ¬ g''.EndpointsLive := by
  obtain ⟨g', hrun, hmerged⟩ := mergeNodes_spec hg hdirect hne order
  exact ⟨g', hrun, hmerged.not_noDangling hg hne hdirect, fun _ _ he => hmerged.mem_both_iff hne he,
    hmerged.removeNode hg hne hdirect⟩

/-- Ids in the order of their values. -/
def byRaw (b : Backing) : HashOrder (DerivedId b) :=
  letI : LinearOrder (DerivedId b) := LinearOrder.lift' DerivedId.raw (by
    rintro ⟨i, hi⟩ ⟨j, hj⟩ rfl
    rfl)
  HashOrder.sorted (DerivedId b)

/-- Two nodes, and an edge from the first to the second. -/
def edgeGraph : OwningGraph (DerivedId .u32) (DerivedId .usize) Unit Unit :=
  let first := ((Call.makeNode ()).perform.run empty).2
  let second := ((Call.makeNode ()).perform.run first).2
  ((Call.makeEdge (.ofNat .u32 0) (.ofNat .u32 1) ()).perform.run second).2

theorem edgeGraph_reachable : Reachable edgeGraph := by
  have hfirst : Reachable ((Call.makeNode ()).perform.run
      (empty : OwningGraph (DerivedId .u32) (DerivedId .usize) Unit Unit)).2 :=
    .call .empty _ trivial
  exact (hfirst.call (.makeNode ()) trivial).call (.makeEdge (.ofNat .u32 0) (.ofNat .u32 1) ())
    ⟨by unfold IsNode; decide, by unfold IsNode; decide⟩

theorem edgeGraph_linked : edgeGraph.Linked :=
  (edgeGraph_reachable.consistent (idsInjective_of_le (by decide) (by decide))).linked

/-- The two nodes grown to a diamond `0 → 1, 2 → 3`, with an edge across from `2` to `1`. -/
def diamondGraph : OwningGraph (DerivedId .u32) (DerivedId .usize) Unit Unit :=
  let third := ((Call.makeNode ()).perform.run edgeGraph).2
  let fourth := ((Call.makeNode ()).perform.run third).2
  let left := ((Call.makeEdge (.ofNat .u32 1) (.ofNat .u32 3) ()).perform.run fourth).2
  let right := ((Call.makeEdge (.ofNat .u32 0) (.ofNat .u32 2) ()).perform.run left).2
  let joined := ((Call.makeEdge (.ofNat .u32 2) (.ofNat .u32 3) ()).perform.run right).2
  ((Call.makeEdge (.ofNat .u32 2) (.ofNat .u32 1) ()).perform.run joined).2

theorem diamondGraph_reachable : Reachable diamondGraph := by
  have hnodes := (edgeGraph_reachable.call (.makeNode ()) trivial).call (.makeNode ()) trivial
  have hleft := hnodes.call (.makeEdge (.ofNat .u32 1) (.ofNat .u32 3) ())
    ⟨by unfold IsNode; decide, by unfold IsNode; decide⟩
  have hright := hleft.call (.makeEdge (.ofNat .u32 0) (.ofNat .u32 2) ())
    ⟨by unfold IsNode; decide, by unfold IsNode; decide⟩
  have hjoined := hright.call (.makeEdge (.ofNat .u32 2) (.ofNat .u32 3) ())
    ⟨by unfold IsNode; decide, by unfold IsNode; decide⟩
  exact hjoined.call (.makeEdge (.ofNat .u32 2) (.ofNat .u32 1) ())
    ⟨by unfold IsNode; decide, by unfold IsNode; decide⟩

theorem diamondGraph_consistent : diamondGraph.Consistent :=
  diamondGraph_reachable.consistent (idsInjective_of_le (by decide) (by decide))

theorem mergeNodes_dangling_edgeGraph :
    ∃ g', (mergeNodes (byRaw .usize) (.ofNat .u32 0) (.ofNat .u32 1) (.ofNat .usize 0)).run
        edgeGraph = (.ok (), g') ∧
      ¬ g'.NoDangling ∧
      (∀ e edge, g'.edges.get? e = some edge →
        (e ∈ incident g'.nodes edge.fromId ∧ e ∈ incident g'.nodes edge.toId ↔
          e ≠ .ofNat .usize 0 ∧
            edgeGraph.edges.get? e ≠ some ⟨.ofNat .u32 1, .ofNat .u32 1⟩)) ∧
      ∀ order' : HashOrder (DerivedId .usize),
        ∃ g'', (removeNode order' (.ofNat .u32 1)).run g' = (.ok (), g'') ∧ ¬ g''.EndpointsLive :=
  mergeNodes_dangling edgeGraph_linked (by decide) (by decide) (byRaw .usize)

/-- The smallest merge there is leaves its edge dangling. -/
theorem mergeNodes_edgeGraph_dangles :
    edgeGraph.Linked ∧
      edgeGraph.edges.get? (.ofNat .usize 0) = some ⟨.ofNat .u32 0, .ofNat .u32 1⟩ ∧
      ∃ g', (mergeNodes (byRaw .usize) (.ofNat .u32 0) (.ofNat .u32 1) (.ofNat .usize 0)).run
          edgeGraph = (.ok (), g') ∧
        ¬ g'.NoDangling ∧
        ∃ g'', (removeNode (byRaw .usize) (.ofNat .u32 1)).run g' = (.ok (), g'') ∧
          ¬ g''.EndpointsLive := by
  have hdirect : edgeGraph.edges.get? (.ofNat .usize 0) =
      some ⟨.ofNat .u32 0, .ofNat .u32 1⟩ := by decide
  have hne : DerivedId.ofNat .u32 0 ≠ .ofNat .u32 1 := by decide
  obtain ⟨g', hrun, hmerged⟩ := mergeNodes_spec edgeGraph_linked hdirect hne (byRaw .usize)
  exact ⟨edgeGraph_linked, hdirect, g', hrun,
    hmerged.not_noDangling edgeGraph_linked hne hdirect,
    hmerged.removeNode edgeGraph_linked hne hdirect (byRaw .usize)⟩

/-! ## What traversal lists -/

/-- The edges after a merge as they should be: without the direct edge, and with source `remove`
replaced by `keep`. -/
def Rewired (g : OwningGraph NodeId EdgeId NodeData EdgeData) (keep remove : NodeId)
    (directEdge e : EdgeId) (u v : NodeId) : Prop :=
  e ≠ directEdge ∧ (g.edges.get? e).map (moved keep remove) = some { fromId := u, toId := v }

section

variable {keep remove : NodeId} {directEdge : EdgeId}
  {g' : OwningGraph NodeId EdgeId NodeData EdgeData}

theorem Merged.incident_live (h : Merged g keep remove directEdge g') {n : NodeId} :
    ∀ e ∈ incident g'.nodes n, ∃ edge, g'.edges.get? e = some edge := by
  intro e he
  obtain ⟨-, edge, hedge, -⟩ := (h.incident_iff n e).1 he
  exact ⟨_, by rw [h.edges, hedge, Option.map_some]⟩

theorem Merged.mem_nodes (h : Merged g keep remove directEdge g') (hg : g.Linked) {n : NodeId}
    (hn : g'.IsNode n) : n ∈ g'.nodes.keys := by
  rw [IsNode, h.nodeData, ← hg.node_keys, ← h.node_keys] at hn
  exact hn

/-- The source of every edge has it in its set, the direct edge apart. -/
theorem Merged.children_lists (h : Merged g keep remove directEdge g') (hg : g.Linked)
    (hne : keep ≠ remove) (order : HashOrder EdgeId) {n : NodeId} (hn : g'.IsNode n) :
    Lists (children order g' n) fun e m => Rewired g keep remove directEdge e n m := by
  refine (OwningGraph.children_lists order (h.mem_nodes hg hn) h.incident_live).congr ?_
  intro e m
  rw [Rewired, ← h.edges]
  refine and_congr_left fun he => ?_
  obtain ⟨⟨u, v⟩, hold, hmoved⟩ := h.exists_edge he
  rw [h.mem_incident hold]
  refine and_iff_left_of_imp fun _ => ?_
  unfold moved at hmoved
  split at hmoved
  · rename_i hu
    cases hmoved
    rw [if_pos hu]
    exact ⟨hne, .inl rfl⟩
  · rename_i hu
    cases hmoved
    rw [if_neg hu]
    exact .inl rfl

/-- The target of an edge has it in its set, the direct edge apart, unless the edge was a loop on
`remove`. -/
theorem Merged.mem_target_iff (h : Merged g keep remove directEdge g') {e : EdgeId}
    {n m : NodeId} (he : g'.edges.get? e = some { fromId := m, toId := n }) :
    e ∈ incident g'.nodes n ↔
      e ≠ directEdge ∧ g.edges.get? e ≠ some { fromId := remove, toId := remove } := by
  obtain ⟨⟨u, v⟩, hold, hmoved⟩ := h.exists_edge he
  rw [h.mem_incident hold, hold, ne_eq (some _), Option.some.injEq]
  refine and_congr_right fun _ => ?_
  unfold moved at hmoved
  split at hmoved
  · rename_i hu
    cases hmoved
    rw [if_pos hu, RawEdge.mk.injEq]
    constructor
    · rintro ⟨hn, -⟩ ⟨-, heq⟩
      exact hn heq
    · intro hloop
      exact ⟨fun heq => hloop ⟨hu, heq⟩, .inr rfl⟩
  · rename_i hu
    cases hmoved
    rw [if_neg hu, RawEdge.mk.injEq]
    exact ⟨fun _ heq => hu heq.1, fun _ => .inr rfl⟩

theorem Merged.parents_lists (h : Merged g keep remove directEdge g') (hg : g.Linked)
    (order : HashOrder EdgeId) {n : NodeId} (hn : g'.IsNode n) :
    Lists (parents order g' n) fun e m => Rewired g keep remove directEdge e m n ∧
      g.edges.get? e ≠ some { fromId := remove, toId := remove } := by
  refine (OwningGraph.parents_lists order (h.mem_nodes hg hn) h.incident_live).congr ?_
  intro e m
  rw [Rewired, ← h.edges, and_right_comm]
  exact and_congr_left fun he => h.mem_target_iff he

end

/-- Traversal lists the rewired edges, each once, in both directions. -/
def TraversesRewired (g : OwningGraph NodeId EdgeId NodeData EdgeData) (keep remove : NodeId)
    (directEdge : EdgeId) (g' : OwningGraph NodeId EdgeId NodeData EdgeData) : Prop :=
  ∀ (order : HashOrder EdgeId) (n : NodeId), g'.IsNode n →
    Lists (children order g' n) (fun e m => Rewired g keep remove directEdge e n m) ∧
      Lists (parents order g' n) (fun e m => Rewired g keep remove directEdge e m n)

/-- A loop on `remove` comes to run from `keep` to `remove`, and `parents` of `remove` misses it. -/
theorem Merged.not_traversesRewired {keep remove : NodeId} {directEdge e : EdgeId}
    {g' : OwningGraph NodeId EdgeId NodeData EdgeData}
    (h : Merged g keep remove directEdge g') (hg : g.Linked) (hne : keep ≠ remove)
    (hdirect : g.edges.get? directEdge = some { fromId := keep, toId := remove })
    (hloop : g.edges.get? e = some { fromId := remove, toId := remove })
    (order : HashOrder EdgeId) :
    ¬ TraversesRewired g keep remove directEdge g' := by
  intro hall
  have hnode : g'.IsNode remove := by
    rw [IsNode, h.nodeData, ← hg.node_keys]
    exact (hg.endpoints hdirect).2
  obtain ⟨items, hrun, -, hitems⟩ := (hall order remove hnode).2
  obtain ⟨items', hrun', -, hitems'⟩ := h.parents_lists hg order hnode
  rw [hrun, Except.ok.injEq] at hrun'
  subst hrun'
  have hrewired : Rewired g keep remove directEdge e keep remove := by
    refine ⟨?_, by rw [hloop, Option.map_some, moved, if_pos rfl]⟩
    rintro rfl
    rw [hdirect, Option.some.injEq, RawEdge.mk.injEq] at hloop
    exact hne hloop.1
  exact ((hitems' e keep).1 ((hitems e keep).2 hrewired)).2 hloop

/-- After a merge both directions of traversal are rewired as they should be if and only if no edge
ran from `remove` to itself. -/
theorem mergeNodes_rewires_iff (hg : g.Linked) {keep remove : NodeId} {directEdge : EdgeId}
    (hdirect : g.edges.get? directEdge = some { fromId := keep, toId := remove })
    (hne : keep ≠ remove) (order : HashOrder EdgeId) :
    ∃ g', (mergeNodes order keep remove directEdge).run g = (.ok (), g') ∧
      (TraversesRewired g keep remove directEdge g' ↔
        ∀ e, g.edges.get? e ≠ some { fromId := remove, toId := remove }) := by
  obtain ⟨g', hrun, hmerged⟩ := mergeNodes_spec hg hdirect hne order
  refine ⟨g', hrun, ?_⟩
  constructor
  · intro hall e hloop
    exact hmerged.not_traversesRewired hg hne hdirect hloop order hall
  · intro hloop order' n hn
    refine ⟨hmerged.children_lists hg hne order' hn, ?_⟩
    exact (hmerged.parents_lists hg order' hn).congr fun e m => and_iff_left (hloop e)

/-- Two edges leave the node that is merged away, and both get a new source. -/
theorem mergeNodes_rewires_iff_diamondGraph :
    ∃ g', (mergeNodes (byRaw .usize) (.ofNat .u32 0) (.ofNat .u32 2) (.ofNat .usize 2)).run
        diamondGraph = (.ok (), g') ∧
      (TraversesRewired diamondGraph (.ofNat .u32 0) (.ofNat .u32 2) (.ofNat .usize 2) g' ↔
        ∀ e, diamondGraph.edges.get? e ≠ some ⟨.ofNat .u32 2, .ofNat .u32 2⟩) :=
  mergeNodes_rewires_iff diamondGraph_consistent.linked (by decide) (by decide) (byRaw .usize)

/-- The two nodes and the edge, with a loop on the second node. -/
def edgeAndLoop : OwningGraph (DerivedId .u32) (DerivedId .usize) Unit Unit :=
  ((Call.makeEdge (.ofNat .u32 1) (.ofNat .u32 1) ()).perform.run edgeGraph).2

theorem edgeAndLoop_linked : edgeAndLoop.Linked := by
  have h : Reachable edgeAndLoop :=
    edgeGraph_reachable.call (.makeEdge (.ofNat .u32 1) (.ofNat .u32 1) ())
      ⟨by unfold IsNode; decide, by unfold IsNode; decide⟩
  exact (h.consistent (idsInjective_of_le (by decide) (by decide))).linked

/-- The loop is lost to `parents`. -/
theorem mergeNodes_edgeAndLoop_loses_loop :
    edgeAndLoop.Linked ∧
      edgeAndLoop.edges.get? (.ofNat .usize 0) = some ⟨.ofNat .u32 0, .ofNat .u32 1⟩ ∧
      ∃ g', (mergeNodes (byRaw .usize) (.ofNat .u32 0) (.ofNat .u32 1) (.ofNat .usize 0)).run
          edgeAndLoop = (.ok (), g') ∧
        ¬ TraversesRewired edgeAndLoop (.ofNat .u32 0) (.ofNat .u32 1) (.ofNat .usize 0) g' := by
  have hdirect : edgeAndLoop.edges.get? (.ofNat .usize 0) =
      some ⟨.ofNat .u32 0, .ofNat .u32 1⟩ := by decide
  have hloop : edgeAndLoop.edges.get? (.ofNat .usize 1) =
      some ⟨.ofNat .u32 1, .ofNat .u32 1⟩ := by decide
  have hne : DerivedId.ofNat .u32 0 ≠ .ofNat .u32 1 := by decide
  obtain ⟨g', hrun, hmerged⟩ := mergeNodes_spec edgeAndLoop_linked hdirect hne (byRaw .usize)
  exact ⟨edgeAndLoop_linked, hdirect, g', hrun,
    hmerged.not_traversesRewired edgeAndLoop_linked hne hdirect hloop (byRaw .usize)⟩

end OwningGraph
end Jstd
