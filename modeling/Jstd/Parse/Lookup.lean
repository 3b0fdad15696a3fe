import Jstd.Foundation.Embedding
import Jstd.OwningGraph.Handles
import Jstd.OwningGraph.MergeFlow
import Jstd.Parse.Correctness
import Jstd.Parse.Rendering

/-!
# Looking up by text, and what the analyses say of a text

`get_node_by_name` compares its argument with the labels of the nodes, not with the names that
declared them, and `get_edge_by_data` with the labels of the edges.  Both take the first match in
the order of a hash map, so what they may answer is a set.

From there on a caller works with ids.  The ids stand for the names of the text, and the flow between
them is that of its arrows (`Denotes.embeds`), so an analysis of the graph is one of the text.
-/

namespace Jstd
namespace OwningGraph

open Foundation

variable {NodeId EdgeId : Type} [DecidableEq NodeId] [DecidableEq EdgeId]

/-- `find_map` over the handles of a map, for the first whose data is the given text. -/
def findByData {K : Type} [DecidableEq K] (order : HashOrder K) (m : HashMap K Str)
    (data : K → Except Panic Str) (text : Str) : Except Panic (Option K) :=
  (order.list m.keys).findSomeM? fun id => do
    let found ← data id
    return if found = text then some id else none

def getNodeByName (order : HashOrder NodeId) (self : OwningGraph NodeId EdgeId Str Str)
    (name : Str) : Except Panic (Option NodeId) :=
  findByData order self.nodeData (fun id => do
    let node ← unwrap (self.getNode? id)
    node.data) name

def getEdgeByData (order : HashOrder EdgeId) (self : OwningGraph NodeId EdgeId Str Str)
    (data : Str) : Except Panic (Option EdgeId) :=
  findByData order self.edgeData (fun id => do
    let edge ← unwrap (self.getEdge? id)
    edge.data) data

/-! ## The first match -/

/-- What a search may answer when the order is that of a hash table: any match, or that there is
none. -/
structure Answers {K : Type} (Matches : K → Prop)
    (answer : HashOrder K → Except Panic (Option K)) : Prop where
  returns : ∀ order, ∃ found, answer order = .ok found
  some_iff : ∀ id, (∃ order, answer order = .ok (some id)) ↔ Matches id
  none_iff : ∀ order, answer order = .ok none ↔ ∀ id, ¬ Matches id

theorem Answers.congr {K : Type} {Matches Matches' : K → Prop}
    {answer : HashOrder K → Except Panic (Option K)} (h : Answers Matches answer)
    (hiff : ∀ id, Matches id ↔ Matches' id) : Answers Matches' answer := by
  obtain rfl : Matches = Matches' := funext fun id => propext (hiff id)
  exact h

/-- One match is the answer under every order. -/
theorem Answers.unique {K : Type} {Matches : K → Prop}
    {answer : HashOrder K → Except Panic (Option K)} (h : Answers Matches answer) {id : K}
    (hid : Matches id) (honly : ∀ id', Matches id' → id' = id) (order : HashOrder K) :
    answer order = .ok (some id) := by
  obtain ⟨found, hfound⟩ := h.returns order
  cases found with
  | none => exact absurd hid ((h.none_iff order).1 hfound id)
  | some id' => rw [hfound, honly id' ((h.some_iff id').1 ⟨order, hfound⟩)]

/-- A search whose tests all return is the search without failures. -/
theorem findByData_eq {K : Type} [DecidableEq K] {order : HashOrder K} {m : HashMap K Str}
    {data : K → Except Panic Str} (h : ∀ {id text}, m.get? id = some text → data id = .ok text)
    (text : Str) :
    findByData order m data text =
      .ok ((order.list m.keys).find? fun id => m.get? id = some text) := by
  -- Stated for any part of the listing, so that the induction goes through.
  have main : ∀ ids : List K, (∀ id ∈ ids, id ∈ m.keys) →
      (ids.findSomeM? fun id => do
        let found ← data id
        return if found = text then some id else none) =
        .ok (ids.find? fun id => m.get? id = some text) := by
    intro ids hids
    induction ids with
    | nil => rfl
    | cons id ids ih =>
        rw [List.forall_mem_cons] at hids
        obtain ⟨found, hfound⟩ := HashMap.exists_of_mem_keys hids.1
        have hrest := ih hids.2
        rw [List.findSomeM?, List.find?_cons, h hfound, hfound]
        by_cases heq : found = text
        · rw [decide_eq_true (congrArg some heq)]
          simp only [bind, Except.bind, pure, Except.pure, if_pos heq]
        · rw [decide_eq_false (fun hsome => heq (Option.some.inj hsome))]
          simp only [bind, Except.bind, pure, Except.pure, if_neg heq]
          exact hrest
  exact main _ fun id => order.mem_list.1

theorem findByData_answers {K : Type} [DecidableEq K] {m : HashMap K Str}
    {data : K → Except Panic Str} (h : ∀ {id text}, m.get? id = some text → data id = .ok text)
    (text : Str) :
    Answers (fun id => m.get? id = some text) fun order => findByData order m data text := by
  simp only [findByData_eq h]
  refine ⟨fun order => ⟨_, rfl⟩, fun id => ⟨?_, fun hid => ?_⟩, fun order => ?_⟩
  · rintro ⟨order, heq⟩
    have hfind := Except.ok.inj heq
    have hfound := List.find?_some hfind
    exact of_decide_eq_true hfound
  · have hmem := HashMap.mem_keys_of_get? hid
    -- A table that yields this key first.
    obtain ⟨order, horder⟩ := HashOrder.exists_list (s := m.keys)
      (l := id :: (m.keys.erase id).toList)
      (List.nodup_cons.2 ⟨by simp, Finset.nodup_toList _⟩) (by
        intro k
        rw [List.mem_cons, Finset.mem_toList, Finset.mem_erase]
        by_cases hk : k = id
        · subst hk
          exact iff_of_true (.inl rfl) hmem
        · simp [hk])
    exact ⟨order, by rw [horder, List.find?_cons, decide_eq_true hid]⟩
  · rw [Except.ok.injEq, List.find?_eq_none]
    constructor
    · intro hnone id hid
      exact hnone id (order.mem_list.2 (HashMap.mem_keys_of_get? hid)) (decide_eq_true hid)
    · intro hnone id _ hid
      exact hnone id (of_decide_eq_true hid)

omit [DecidableEq EdgeId] in
/-- The nodes that may be answered are those with the label. -/
theorem getNodeByName_answers (g : OwningGraph NodeId EdgeId Str Str) (name : Str) :
    Answers (fun id => g.nodeData.get? id = some name) fun order => getNodeByName order g name := by
  refine findByData_answers (fun {id text} h => ?_) name
  simp only [getNode?, HashMap.containsKey, h, Option.isSome_some, if_true, unwrap, NodeRef.data,
    indexMap, bind, Except.bind]

omit [DecidableEq NodeId] in
theorem getEdgeByData_answers (g : OwningGraph NodeId EdgeId Str Str) (data : Str) :
    Answers (fun id => g.edgeData.get? id = some data) fun order => getEdgeByData order g data := by
  refine findByData_answers (fun {id text} h => ?_) data
  simp only [getEdge?, HashMap.containsKey, h, Option.isSome_some, if_true, unwrap, EdgeRef.data,
    indexMap, bind, Except.bind]

end OwningGraph

/-! ## Names and their ids -/

namespace Parse

open Foundation OwningGraph

variable {NodeId EdgeId : Type} [DecidableEq NodeId] [DecidableEq EdgeId] [Identifier NodeId]
  [Identifier EdgeId]

/-- The id of a name: its place in the order of first mention. -/
def nameId (NodeId : Type) [Identifier NodeId] (statements : List Statement) (name : Str) : NodeId :=
  fromUsize ((names statements).idxOf name)

/-- An arrow of the text. -/
def Leads (statements : List Statement) (source target : Str) : Prop :=
  ∃ text, (source, target, text) ∈ arrows statements

/-- The statements of a source, blank lines left out. -/
def Says (source : Str) (statements : List Statement) : Prop :=
  ∃ forms, List.Forall₂ Reads (Str.lines source) forms ∧ forms.reduceOption = statements

/-- What is said is accepted, and its graph is built. -/
theorem Says.parse {source : Source} {statements : List Statement}
    (h : Says source.text statements) :
    ∃ g : TestGraph, OwningGraph.parse source.text = .ok (.ok g) ∧ Denotes statements g := by
  obtain ⟨forms, hforms, rfl⟩ := h
  rcases parse_spec (DerivedId .usize) (DerivedId .usize) source.text with
    ⟨error, -, hrejects⟩ | ⟨forms', self, hforms', hrun, hbuilt⟩
  · -- The line of an error is malformed.
    obtain ⟨i, -, hline, -⟩ := hrejects.line
    exact absurd (wellFormed_of_forms hforms _ (List.mem_of_getElem? hline)) hrejects.malformed
  · rw [forms_unique hforms hforms']
    exact ⟨self.graph, hrun, hbuilt.denotes (built_idsInjective source.len_le hforms' hbuilt)⟩

theorem nodup_eraseDups {α : Type} [BEq α] [LawfulBEq α] : ∀ l : List α, l.eraseDups.Nodup
  | [] => List.nodup_nil
  | a :: l => by
      rw [List.eraseDups_cons, List.nodup_cons, List.mem_eraseDups]
      exact ⟨by simp, nodup_eraseDups _⟩
termination_by l => l.length
decreasing_by exact Nat.lt_succ_of_le (List.length_filter_le _ l)

theorem names_nodup (statements : List Statement) : (names statements).Nodup :=
  nodup_eraseDups _

namespace Denotes

variable {statements : List Statement} {g : OwningGraph NodeId EdgeId Str Str}

theorem get?_nameId (h : Denotes statements g) {name : Str} (hname : name ∈ names statements) :
    g.nodeData.get? (nameId NodeId statements name) = some (nodeText statements name) :=
  h.node (List.getElem?_idxOf hname)

theorem node_iff (h : Denotes statements g) {id : NodeId} {text : Str} :
    g.nodeData.get? id = some text ↔
      ∃ name ∈ names statements, nodeText statements name = text ∧
        nameId NodeId statements name = id := by
  constructor
  · intro hid
    obtain ⟨k, hk, rfl⟩ := h.node_only (HashMap.mem_keys_of_get? hid)
    have hget := List.getElem?_eq_getElem hk
    have hnode := h.node hget
    rw [hid] at hnode
    refine ⟨_, List.getElem_mem hk, (Option.some.inj hnode).symm, congrArg fromUsize ?_⟩
    exact (names_nodup statements).idxOf_getElem k hk
  · rintro ⟨name, hname, rfl, rfl⟩
    exact h.get?_nameId hname

theorem edgeData_iff (h : Denotes statements g) {id : EdgeId} {text : Str} :
    g.edgeData.get? id = some text ↔
      ∃ k source target, (arrows statements)[k]? = some (source, target, text) ∧
        fromUsize k = id := by
  constructor
  · intro hid
    have hkey := HashMap.mem_keys_of_get? hid
    obtain ⟨k, hk, rfl⟩ := h.edge_only hkey
    obtain ⟨⟨source, target, text'⟩, hget⟩ : ∃ arrow, (arrows statements)[k]? = some arrow :=
      ⟨_, List.getElem?_eq_getElem hk⟩
    have hdata := (h.edge hget).1
    rw [hid] at hdata
    obtain rfl := Option.some.inj hdata
    exact ⟨k, source, target, hget, rfl⟩
  · rintro ⟨k, source, target, hget, rfl⟩
    exact (h.edge hget).1

omit [DecidableEq NodeId] in
theorem nameId_of_getElem? {i : Nat} {name : Str} (hi : (names statements)[i]? = some name) :
    nameId NodeId statements name = fromUsize i := by
  obtain ⟨hlt, rfl⟩ := List.getElem?_eq_some_iff.1 hi
  exact congrArg fromUsize ((names_nodup statements).idxOf_getElem i hlt)

theorem edges_iff (h : Denotes statements g) {u v : NodeId} :
    (∃ e, g.edges.get? e = some { fromId := u, toId := v }) ↔
      ∃ source target, Leads statements source target ∧ nameId NodeId statements source = u ∧
        nameId NodeId statements target = v := by
  constructor
  · rintro ⟨e, he⟩
    have hkey := HashMap.mem_keys_of_get? he
    rw [h.consistent.edge_keys] at hkey
    obtain ⟨k, hk, rfl⟩ := h.edge_only hkey
    obtain ⟨⟨source, target, text⟩, hget⟩ : ∃ arrow, (arrows statements)[k]? = some arrow :=
      ⟨_, List.getElem?_eq_getElem hk⟩
    obtain ⟨-, i, j, hi, hj, hraw⟩ := h.edge hget
    rw [he] at hraw
    cases hraw
    exact ⟨source, target, ⟨text, List.mem_of_getElem? hget⟩, nameId_of_getElem? hi,
      nameId_of_getElem? hj⟩
  · rintro ⟨source, target, ⟨text, harrow⟩, rfl, rfl⟩
    obtain ⟨k, hget⟩ := List.mem_iff_getElem?.1 harrow
    obtain ⟨-, i, j, hi, hj, hraw⟩ := h.edge hget
    exact ⟨fromUsize k, by rw [hraw, nameId_of_getElem? hi, nameId_of_getElem? hj]⟩

/-- The flow of the graph is that of the arrows, under the ids of the names. -/
theorem embeds (h : Denotes statements g) (orders : NodeId → HashOrder EdgeId) :
    Embeds (Leads statements) (g.cfg orders).Edge {name | name ∈ names statements}
      (nameId NodeId statements) where
  inj := by
    intro a ha b hb heq
    have hlt : ∀ {name}, name ∈ names statements →
        (names statements).idxOf name < g.nextNodeId := by
      intro name hname
      rw [h.nodeCount]
      exact List.idxOf_lt_length_of_mem hname
    exact (List.idxOf_inj ha).1 (h.apart.node (hlt ha) (hlt hb) heq)
  ends := by
    rintro source target ⟨text, harrow⟩
    obtain ⟨statement, hstatement, hsome⟩ := List.mem_filterMap.1 harrow
    cases statement with
    | node name payload => cases hsome
    | edge source' target' text' =>
        cases hsome
        exact ⟨mem_names.2 ⟨_, hstatement, List.mem_cons_self⟩,
          mem_names.2 ⟨_, hstatement, List.mem_cons_of_mem _ List.mem_cons_self⟩⟩
  edge_iff := (h.consistent.cfg_edge_iff orders).trans h.edges_iff

end Denotes

/-! ## Texts -/

/-- The name `b`. -/
def nameB : Name where
  text := ['b']
  isName := ⟨List.cons_ne_nil _ _, List.forall_mem_singleton.2 (by decide)⟩
  noArrow h := absurd h.length_le (by decide)

/-- Rendered declarations say what they mean. -/
theorem says_render {declarations : List Declaration}
    (hplain : ∀ d ∈ declarations, ¬ d.Confusing) :
    Says (render declarations) (declarations.map Declaration.statement) := by
  refine ⟨declarations.map fun d => some d.statement, ?_, ?_⟩
  · rw [lines_render, List.forall₂_map_left_iff, List.forall₂_map_right_iff, List.forall₂_same]
    exact fun d hd => Declaration.render_reads (hplain d hd)
  · rw [List.reduceOption, List.filterMap_map, ← List.filterMap_eq_map]
    rfl

/-- The text `a -> b [p->next]`. -/
def arrowSource : Source where
  text := render [.edge nameA nameB pointerLabel]
  len_le := by decide

theorem arrowSource_says :
    Says arrowSource.text [.edge nameA.text nameB.text pointerLabel.text] := by
  refine @says_render [.edge nameA nameB pointerLabel] fun d hd => ?_
  obtain rfl := List.mem_singleton.1 hd
  exact id

/-- Looking up in the graph of a text: the nodes that may be answered are those of the names whose
label is asked for, and the edges those of the arrows whose text is. -/
theorem parse_lookup {source : Source} {statements : List Statement}
    (h : Says source.text statements) :
    ∃ g : TestGraph, OwningGraph.parse source.text = .ok (.ok g) ∧
      (∀ text, Answers
        (fun id => ∃ name ∈ names statements, nodeText statements name = text ∧
          nameId _ statements name = id)
        fun order => getNodeByName order g text) ∧
      ∀ text, Answers
        (fun id => ∃ k source target, (arrows statements)[k]? = some (source, target, text) ∧
          fromUsize k = id)
        fun order => getEdgeByData order g text := by
  obtain ⟨g, hrun, hg⟩ := h.parse
  refine ⟨g, hrun, fun text => ?_, fun text => ?_⟩
  · exact (getNodeByName_answers g text).congr fun id => hg.node_iff
  · exact (getEdgeByData_answers g text).congr fun id => hg.edgeData_iff

/-- The edge is found by its label, and no node has that label. -/
theorem parse_lookup_arrow :
    ∃ g : TestGraph, OwningGraph.parse arrowSource.text = .ok (.ok g) ∧ ∀ nodeOrder edgeOrder,
      getNodeByName nodeOrder g pointerLabel.text = .ok none ∧
        getEdgeByData edgeOrder g pointerLabel.text = .ok (some (fromUsize 0)) := by
  obtain ⟨g, hrun, hnode, hedge⟩ := parse_lookup arrowSource_says
  refine ⟨g, hrun, fun nodeOrder edgeOrder => ⟨?_, ?_⟩⟩
  · refine ((hnode _).none_iff nodeOrder).2 ?_
    rintro id ⟨name, hname, htext, -⟩
    revert name
    decide
  · refine (hedge _).unique ⟨0, nameA.text, nameB.text, rfl, rfl⟩ ?_ edgeOrder
    rintro id ⟨k, source, target, hk, rfl⟩
    obtain ⟨hlt, -⟩ := List.getElem?_eq_some_iff.1 hk
    exact congrArg fromUsize (Nat.lt_one_iff.1 hlt)

/-- The dominators of a text: look a root up by its label, compute the tree, and what it says of any
two names is what every way along the arrows says. -/
theorem parse_dominators {source : Source} {statements : List Statement}
    (h : Says source.text statements) {r : Str} (hr : r ∈ names statements)
    (honly : ∀ m ∈ names statements, nodeText statements m = nodeText statements r → m = r) :
    ∃ (g : TestGraph) (root : DerivedId .usize),
      OwningGraph.parse source.text = .ok (.ok g) ∧
      (∀ order, getNodeByName order g (nodeText statements r) = .ok (some root)) ∧
      ∀ orders, ∃ enough, ∀ fuel, enough ≤ fuel →
        ∃ tree, Dominator.computeDominators fuel (g.cfg orders) root = .ok tree ∧
          ∀ n ∈ names statements,
            (∀ d ∈ names statements,
              tree.immediateDominator (nameId _ statements n) = some (nameId _ statements d) ↔
                Reaches (Leads statements) r n ∧ n ≠ r ∧ IsIdom (Leads statements) r d n) ∧
            (tree.immediateDominator (nameId _ statements n) = none ↔
              n = r ∨ ¬ Reaches (Leads statements) r n) := by
  obtain ⟨g, hrun, hg⟩ := h.parse
  refine ⟨g, nameId _ statements r, hrun, fun order => ?_, fun orders => ?_⟩
  -- No other name has the text of the root, so every order finds the root.
  · refine (getNodeByName_answers g _).unique (hg.get?_nameId hr) (fun id hid => ?_) order
    obtain ⟨m, hm, htext, rfl⟩ := hg.node_iff.1 hid
    rw [honly m hm htext]
  · have hcopy := hg.embeds orders
    have hne : ∀ {n}, n ∈ names statements →
        (nameId (DerivedId .usize) statements n = nameId _ statements r ↔ n = r) :=
      fun hn => hcopy.inj.eq_iff hn hr
    obtain ⟨enough, hcompute⟩ := Dominator.computeDominators_spec (g.cfg orders)
      (nameId _ statements r) (hg.consistent.finite_reachable orders _)
    refine ⟨enough, fun fuel hfuel => ?_⟩
    obtain ⟨tree, htree, hspec⟩ := hcompute fuel hfuel
    refine ⟨tree, htree, fun n hn => ⟨fun d hd => ?_, ?_⟩⟩
    · calc tree.immediateDominator (nameId _ statements n) = some (nameId _ statements d)
          ↔ (g.cfg orders).Reachable (nameId _ statements r) (nameId _ statements n) ∧
              nameId (DerivedId .usize) statements n ≠ nameId _ statements r ∧
              IsIdom (g.cfg orders).Edge (nameId _ statements r) (nameId _ statements d)
                (nameId _ statements n) := hspec.idom_iff _ _
        _ ↔ Reaches (Leads statements) r n ∧ n ≠ r ∧ IsIdom (Leads statements) r d n := by
            rw [← hcopy.reaches_iff hr hn]
            refine and_congr_right fun hreach => and_congr (not_congr (hne hn)) ?_
            exact hcopy.isIdom_iff hr hd hn ((hcopy.reaches_iff hr hn).1 hreach)
    · calc tree.immediateDominator (nameId _ statements n) = none
          ↔ nameId (DerivedId .usize) statements n = nameId _ statements r ∨
              ¬ (g.cfg orders).Reachable (nameId _ statements r) (nameId _ statements n) :=
            hspec.idom_eq_none
        _ ↔ n = r ∨ ¬ Reaches (Leads statements) r n :=
            or_congr (hne hn) (not_congr (hcopy.reaches_iff hr hn))

/-- In `a -> b` the dominator of `b` is found to be `a`. -/
theorem parse_dominators_arrow :
    ∃ (g : TestGraph) (root : DerivedId .usize),
      OwningGraph.parse arrowSource.text = .ok (.ok g) ∧
      ∀ order orders, getNodeByName order g nameA.text = .ok (some root) ∧
        ∃ fuel tree, Dominator.computeDominators fuel (g.cfg orders) root = .ok tree ∧
          tree.immediateDominator (fromUsize 1) = some (fromUsize 0) := by
  obtain ⟨g, root, hrun, hroot, htree⟩ :=
    parse_dominators arrowSource_says (r := nameA.text) (by decide) (by decide)
  refine ⟨g, root, hrun, fun order orders => ⟨hroot order, ?_⟩⟩
  obtain ⟨enough, henough⟩ := htree orders
  obtain ⟨tree, hcompute, hanswers⟩ := henough enough (Nat.le_refl _)
  refine ⟨enough, tree, hcompute, ((hanswers nameB.text (by decide)).1 nameA.text (by decide)).2 ?_⟩
  have hedge : Leads [.edge nameA.text nameB.text pointerLabel.text] nameA.text nameB.text :=
    ⟨pointerLabel.text, List.mem_cons_self⟩
  refine ⟨.single hedge, by decide, by decide, .root _ _, fun c hc hdom => ?_⟩
  -- The walk along the arrow passes nothing else.
  have hmem := hdom _ (.cons hedge (.single _))
  rcases List.mem_cons.1 hmem with rfl | hmem
  · exact .refl _ _
  · exact absurd (List.mem_singleton.1 hmem) hc

end Parse
end Jstd
