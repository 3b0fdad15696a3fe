import Jstd.Sese.Reachable

/-!
# Visit — the depth-first search of the undirected graph

`visit` numbers the nodes it reaches.  Every access is in bounds (`Visited`), and `VisitRule` is its
proof rule: a property of the state that survives entering a node, following an edge, coming back
and leaving holds after the search.
-/

namespace Jstd
namespace Sese

open Foundation

variable {E : Type} {edges : List (IEdge E)} {n : Nat}

theorem other_lt (hbounds : InBounds edges n) {edge : IEdge E} (hmem : edge ∈ edges)
    (node : Nat) : other edge node < n := by
  obtain ⟨hfrom, hto⟩ := hbounds edge hmem
  rw [other]
  split
  · exact hto
  · exact hfrom

theorem pushAt_of_lt {α : Type} {xs : List (List α)} {i : Nat} (h : i < xs.length) (x : α) :
    pushAt xs i x = .ok (xs.set i (xs.getD i [] ++ [x])) := by
  rw [pushAt, index_of_lt h []]
  exact setIndex_of_lt h _

/-- Pushing bounded values keeps the rows of a table bounded. -/
theorem mem_getD_set {α : Type} {xs : List (List α)} {i j : Nat} {row : List α} {x : α}
    (h : x ∈ (xs.set i row).getD j []) : x ∈ row ∨ x ∈ xs.getD j [] := by
  rw [getD_set] at h
  split at h
  · exact .inl h
  · exact .inr h

/-- How often an edge is filed at a node. -/
def incidences (v : Nat) (p : IEdge E × Nat) : List Nat :=
  (if p.1.fromNode = v then [p.2] else []) ++ (if p.1.toNode = v then [p.2] else [])

theorem mem_incidences {v eid : Nat} {p : IEdge E × Nat} :
    eid ∈ incidences v p ↔ eid = p.2 ∧ (p.1.fromNode = v ∨ p.1.toNode = v) := by
  rw [incidences, List.mem_append]
  split
  · split
    · simp_all
    · simp_all
  · split
    · simp_all
    · simp_all

/-- Every row is extended by the edges at its node, in their order. -/
theorem fileEdges_rows (pairs : List (IEdge E × Nat))
    (hpairs : ∀ p ∈ pairs, p.1.fromNode < n ∧ p.1.toNode < n) :
    ∀ incident : List (List Nat), incident.length = n →
      ∃ incident', fileEdges pairs incident = .ok incident' ∧ incident'.length = n ∧
        ∀ v, incident'.getD v [] = incident.getD v [] ++ pairs.flatMap (incidences v) := by
  induction pairs with
  | nil =>
      intro incident hlen
      exact ⟨incident, rfl, hlen, fun v => (List.append_nil _).symm⟩
  | cons p pairs ih =>
      obtain ⟨edge, id⟩ := p
      intro incident hlen
      obtain ⟨hfrom, hto⟩ := hpairs (edge, id) List.mem_cons_self
      -- One push extends one row.
      have hpush : ∀ {rows : List (List Nat)} {i : Nat} (v : Nat), i < rows.length →
          (rows.set i (rows.getD i [] ++ [id])).getD v [] =
            rows.getD v [] ++ (if i = v then [id] else []) := by
        intro rows i v hi
        rw [getD_set]
        by_cases h : i = v
        · subst h
          rw [if_pos ⟨rfl, hi⟩, if_pos rfl]
        · rw [if_neg fun h' => h h'.1, if_neg h, List.append_nil]
      have hfrom' : edge.fromNode < incident.length := by rw [hlen]; exact hfrom
      obtain ⟨rows, hrows₁⟩ : ∃ rows, incident.set edge.fromNode
          (incident.getD edge.fromNode [] ++ [id]) = rows := ⟨_, rfl⟩
      have hlen₁ : rows.length = n := by rw [← hrows₁, List.length_set, hlen]
      have hto' : edge.toNode < rows.length := by rw [hlen₁]; exact hto
      obtain ⟨incident', hrun, hlen', hrows⟩ := ih
        (fun p hp => hpairs p (List.mem_cons_of_mem _ hp))
        (rows.set edge.toNode (rows.getD edge.toNode [] ++ [id])) (by rw [List.length_set, hlen₁])
      refine ⟨incident', ?_, hlen', fun v => ?_⟩
      · rw [fileEdges, pushAt_of_lt hfrom', hrows₁]
        show (pushAt rows edge.toNode id >>= _) = _
        rw [pushAt_of_lt hto']
        exact hrun
      · rw [hrows, hpush v hto', ← hrows₁, hpush v hfrom', List.flatMap_cons, incidences]
        simp only [List.append_assoc]

theorem fileEdges_spec {m : Nat} (pairs : List (IEdge E × Nat))
    (hpairs : ∀ p ∈ pairs, (p.1.fromNode < n ∧ p.1.toNode < n) ∧ p.2 < m)
    (incident : List (List Nat)) (hlen : incident.length = n)
    (hlt : ∀ v eid, eid ∈ incident.getD v [] → eid < m) :
    ∃ incident', fileEdges pairs incident = .ok incident' ∧ incident'.length = n ∧
      ∀ v eid, eid ∈ incident'.getD v [] → eid < m := by
  obtain ⟨incident', hrun, hlen', hrows⟩ :=
    fileEdges_rows pairs (fun p hp => (hpairs p hp).1) incident hlen
  refine ⟨incident', hrun, hlen', ?_⟩
  intro v eid hmem
  rw [hrows] at hmem
  rcases List.mem_append.1 hmem with hmem | hmem
  · exact hlt v eid hmem
  · obtain ⟨p, hp, hid⟩ := List.mem_flatMap.1 hmem
    rw [(mem_incidences.1 hid).1]
    exact (hpairs p hp).2

/-! ## The depth-first search -/

/-- The vectors of `visit` hold node numbers, edge numbers and preorder numbers. -/
structure Visited (n m : Nat) (s : VisitState) : Prop where
  parent_length : s.parent.length = n
  parentEdge_length : s.parentEdge.length = n
  number_length : s.number.length = n
  endOf_length : s.endOf.length = n
  tree_length : s.tree.length = m
  preorder_lt : ∀ v ∈ s.preorder, v < n
  number_lt : ∀ (v k : Nat), s.number.getD v ⊤ = WithTop.some k → k < s.preorder.length
  parentEdge_lt : ∀ v eid : Nat, s.parentEdge.getD v none = some eid → eid < m

/-- The nodes without a number. -/
def unnumbered (n : Nat) (s : VisitState) : Finset Nat :=
  (Finset.range n).filter fun v => s.number.getD v ⊤ = ⊤

theorem new_visited (n m : Nat) : Visited n m (VisitState.new n m) := by
  constructor
  · exact List.length_replicate
  · exact List.length_replicate
  · exact List.length_replicate
  · exact List.length_replicate
  · exact List.length_replicate
  · intro v hv
    cases hv
  · intro v k h
    rw [VisitState.new, getD_replicate] at h
    cases h
  · intro v eid h
    rw [VisitState.new, getD_replicate] at h
    cases h

/-! ### One step of the search -/

/-- `visit` numbers the node it enters. -/
def VisitState.enter (self : VisitState) (node : Nat) : VisitState :=
  { self with
    number := self.number.set node (WithTop.some self.preorder.length)
    preorder := self.preorder ++ [node] }

/-- It notes the edge that leads on to a node without a number. -/
def VisitState.found (self : VisitState) (node other eid : Nat) : VisitState :=
  { self with
    parent := self.parent.set other (some node)
    parentEdge := self.parentEdge.set other (some eid) }

/-- It marks the edge once it is back. -/
def VisitState.flag (self : VisitState) (eid : Nat) : VisitState :=
  { self with tree := self.tree.set eid true }

def VisitState.leave (self : VisitState) (node : Nat) : VisitState :=
  { self with endOf := self.endOf.set node self.preorder.length }

namespace Visited

variable {m : Nat} {s : VisitState}

theorem enter (h : Visited n m s) {node : Nat} (hnode : node < n) : Visited n m (s.enter node) where
  parent_length := h.parent_length
  parentEdge_length := h.parentEdge_length
  number_length := by rw [VisitState.enter, List.length_set, h.number_length]
  endOf_length := h.endOf_length
  tree_length := h.tree_length
  preorder_lt := by
    intro v hv
    rcases List.mem_append.1 hv with hv | hv
    · exact h.preorder_lt v hv
    · obtain rfl := List.mem_singleton.1 hv
      exact hnode
  number_lt := by
    intro v k hk
    rw [VisitState.enter, List.length_append, List.length_singleton]
    rw [VisitState.enter, getD_set] at hk
    split at hk
    · have := WithTop.coe_inj.1 hk
      omega
    · have := h.number_lt v k hk
      omega
  parentEdge_lt := h.parentEdge_lt

theorem found (h : Visited n m s) {eid : Nat} (heid : eid < m) (node other : Nat) :
    Visited n m (s.found node other eid) :=
  { h with
    parent_length := by rw [VisitState.found, List.length_set, h.parent_length]
    parentEdge_length := by rw [VisitState.found, List.length_set, h.parentEdge_length]
    parentEdge_lt := by
      intro v eid' hv
      rw [VisitState.found, getD_set] at hv
      split at hv
      · obtain rfl := Option.some.inj hv
        exact heid
      · exact h.parentEdge_lt v eid' hv }

theorem flag (h : Visited n m s) (eid : Nat) : Visited n m (s.flag eid) :=
  { h with tree_length := by rw [VisitState.flag, List.length_set, h.tree_length] }

theorem leave (h : Visited n m s) (node : Nat) : Visited n m (s.leave node) :=
  { h with endOf_length := by rw [VisitState.leave, List.length_set, h.endOf_length] }

/-- Entering a node leaves one node less without a number. -/
theorem unnumbered_enter (h : Visited n m s) {node : Nat} (hnode : node < n)
    (hnew : s.number.getD node ⊤ = ⊤) : unnumbered n (s.enter node) ⊂ unnumbered n s := by
  refine Finset.ssubset_iff_subset_ne.2 ⟨?_, ?_⟩
  · intro v hv
    obtain ⟨hlt, hv⟩ := Finset.mem_filter.1 hv
    refine Finset.mem_filter.2 ⟨hlt, ?_⟩
    rw [VisitState.enter, getD_set] at hv
    split at hv
    · cases hv
    · exact hv
  · intro heq
    have hmem : node ∈ unnumbered n s := Finset.mem_filter.2 ⟨Finset.mem_range.2 hnode, hnew⟩
    rw [← heq] at hmem
    have hval := (Finset.mem_filter.1 hmem).2
    rw [VisitState.enter, getD_set, if_pos ⟨rfl, by rw [h.number_length]; exact hnode⟩] at hval
    cases hval

end Visited

/-- The rule for `visit`: what holds when a node is entered, while its edges are followed (the list
is of those already followed, the first state the one in which the node was entered), and when it
is left. -/
structure VisitRule (edges : List (IEdge E)) (n : Nat) (incident : List (List Nat))
    (Pre : Nat → VisitState → Prop) (Inv : Nat → VisitState → List Nat → VisitState → Prop)
    (Post : Nat → VisitState → VisitState → Prop) : Prop where
  enter : ∀ {node s}, Visited n edges.length s → node < n → s.number.getD node ⊤ = ⊤ →
    Pre node s → Inv node s [] (s.enter node)
  skip : ∀ {node s done eid rest t edge}, Visited n edges.length t → Inv node s done t →
    incident.getD node [] = done ++ eid :: rest → edges[eid]? = some edge →
    (t.parentEdge.getD node none = some eid ∨ t.number.getD (other edge node) ⊤ ≠ ⊤) →
    Inv node s (done ++ [eid]) t
  find : ∀ {node s done eid rest t edge}, Visited n edges.length t → Inv node s done t →
    incident.getD node [] = done ++ eid :: rest → edges[eid]? = some edge →
    t.number.getD (other edge node) ⊤ = ⊤ →
    Pre (other edge node) (t.found node (other edge node) eid)
  back : ∀ {node s done eid rest t t' edge}, Visited n edges.length t → Inv node s done t →
    incident.getD node [] = done ++ eid :: rest → edges[eid]? = some edge →
    t.number.getD (other edge node) ⊤ = ⊤ → Visited n edges.length t' →
    Post (other edge node) (t.found node (other edge node) eid) t' →
    Inv node s (done ++ [eid]) (t'.flag eid)
  leave : ∀ {node s t}, node < n → Visited n edges.length t → Inv node s (incident.getD node []) t →
    Post node s (t.leave node)

theorem VisitRule.run {incident : List (List Nat)} {Pre : Nat → VisitState → Prop}
    {Inv : Nat → VisitState → List Nat → VisitState → Prop}
    {Post : Nat → VisitState → VisitState → Prop} (rule : VisitRule edges n incident Pre Inv Post)
    (hbounds : InBounds edges n) (hlen : incident.length = n)
    (hincident : ∀ v eid, eid ∈ incident.getD v [] → eid < edges.length) (fuel : Nat) :
    ∀ {s : VisitState} {node : Nat}, Visited n edges.length s → node < n →
      s.number.getD node ⊤ = ⊤ → (unnumbered n s).card ≤ fuel → Pre node s →
      ∃ t, (visit edges incident fuel node).run s = (.ok (), t) ∧ Visited n edges.length t ∧
        unnumbered n t ⊆ unnumbered n s ∧ Post node s t := by
  induction fuel with
  | zero =>
      intro s node _ hnode hnew hfuel _
      have hmem : node ∈ unnumbered n s :=
        Finset.mem_filter.2 ⟨Finset.mem_range.2 hnode, hnew⟩
      have := Finset.card_pos.2 ⟨node, hmem⟩
      omega
  | succ fuel ih =>
      intro s node hs hnode hnew hfuel hpre
      have hs₁ : Visited n edges.length (s.enter node) := hs.enter hnode
      -- Numbering the node leaves fewer to number: the fuel suffices for the calls below.
      have hsub := hs.unnumbered_enter hnode hnew
      have hcard : (unnumbered n (s.enter node)).card ≤ fuel := by
        have := Finset.card_lt_card hsub
        omega
      obtain ⟨t, hloop, ht, htsub, hinv⟩ := Method.forEach_induction
        (fun eid => (do
          let self ← get
          let parentEdge ← index self.parentEdge node
          if parentEdge = some eid then pure ()
          else do
            let edge ← index edges eid
            let otherNumber ← index self.number (other edge node)
            if otherNumber = ⊤ then do
              let parent ← setIndex self.parent (other edge node) (some node)
              let parentEdge ← setIndex self.parentEdge (other edge node) (some eid)
              modify fun self => { self with parent := parent, parentEdge := parentEdge }
              visit edges incident fuel (other edge node)
              let self ← get
              let tree ← setIndex self.tree eid true
              modify fun self => { self with tree := tree }
            else pure () : Method Panic VisitState Unit))
        (fun done t => Visited n edges.length t ∧ unnumbered n t ⊆ unnumbered n (s.enter node) ∧
          Inv node s done t)
        (incident.getD node []) (s := s.enter node)
        ⟨hs₁, Finset.Subset.refl _, rule.enter hs hnode hnew hpre⟩ (by
          rintro done eid rest t hsplit ⟨ht, htsub, hinv⟩
          have heid : eid < edges.length := hincident node eid (by rw [hsplit]; simp)
          have hedge : edges[eid]? = some edges[eid] := List.getElem?_eq_getElem heid
          have hother := other_lt hbounds (List.getElem_mem heid) node
          have eParentEdge := index_of_lt
            (show node < t.parentEdge.length by rw [ht.parentEdge_length]; exact hnode) none
          have eNumber := index_of_lt
            (show other edges[eid] node < t.number.length by
              rw [ht.number_length]
              exact hother) ⊤
          simp only [Method.run_bind_get, eParentEdge, Method.run_bind_liftM_ok]
          -- The edge is followed unless it is the parent edge or its end has a number.
          by_cases hskip : t.parentEdge.getD node none = some eid
          · exact ⟨t, by rw [if_pos hskip]; rfl, ht, htsub,
              rule.skip ht hinv hsplit hedge (.inl hskip)⟩
          · rw [if_neg hskip]
            simp only [index_of_getElem? hedge, eNumber, Method.run_bind_liftM_ok]
            by_cases htop : t.number.getD (other edges[eid] node) ⊤ = ⊤
            · rw [if_pos htop]
              simp only [setIndex_of_lt (show other edges[eid] node < t.parent.length by
                  rw [ht.parent_length]; exact hother),
                setIndex_of_lt (show other edges[eid] node < t.parentEdge.length by
                  rw [ht.parentEdge_length]; exact hother),
                Method.run_bind_liftM_ok, Method.run_bind_modify]
              obtain ⟨t₂, hrun, ht₂, hsub₂, hpost⟩ := ih (ht.found heid node (other edges[eid] node))
                hother htop (Nat.le_trans (Finset.card_le_card htsub) hcard)
                (rule.find ht hinv hsplit hedge htop)
              refine ⟨t₂.flag eid, ?_, ht₂.flag eid, hsub₂.trans htsub,
                rule.back ht hinv hsplit hedge htop ht₂ hpost⟩
              rw [VisitState.found] at hrun
              rw [Method.run_bind_of_ok hrun]
              simp only [Method.run_bind_get, Method.run_bind_liftM_ok,
                setIndex_of_lt (show eid < t₂.tree.length by rw [ht₂.tree_length]; exact heid)]
              rfl
            · exact ⟨t, by rw [if_neg htop]; rfl, ht, htsub,
                rule.skip ht hinv hsplit hedge (.inr htop)⟩)
      refine ⟨t.leave node, ?_, ht.leave node, htsub.trans hsub.subset, rule.leave hnode ht hinv⟩
      rw [VisitState.enter] at hloop
      rw [visit]
      simp only [Method.run_bind_get, Method.run_bind_liftM_ok, Method.run_bind_modify,
        setIndex_of_lt (show node < s.number.length by rw [hs.number_length]; exact hnode),
        index_of_lt (show node < incident.length by rw [hlen]; exact hnode) []]
      rw [Method.run_bind_of_ok hloop]
      simp only [Method.run_bind_get, Method.run_bind_liftM_ok,
        setIndex_of_lt (show node < t.endOf.length by rw [ht.endOf_length]; exact hnode)]
      rfl

theorem visit_spec (hbounds : InBounds edges n) {incident : List (List Nat)}
    (hlen : incident.length = n)
    (hincident : ∀ v eid, eid ∈ incident.getD v [] → eid < edges.length) (fuel : Nat)
    {s : VisitState} {node : Nat} (hs : Visited n edges.length s) (hnode : node < n)
    (hnew : s.number.getD node ⊤ = ⊤) (hfuel : (unnumbered n s).card ≤ fuel) :
    ∃ t, (visit edges incident fuel node).run s = (.ok (), t) ∧ Visited n edges.length t ∧
      unnumbered n t ⊆ unnumbered n s := by
  have rule : VisitRule edges n incident (fun _ _ => True) (fun _ _ _ _ => True)
      (fun _ _ _ => True) := by
    constructor
    · exact fun _ _ _ _ => trivial
    · exact fun _ _ _ _ _ => trivial
    · exact fun _ _ _ _ _ => trivial
    · exact fun _ _ _ _ _ _ _ => trivial
    · exact fun _ _ _ => trivial
  obtain ⟨t, hrun, ht, hsub, -⟩ := rule.run hbounds hlen hincident fuel hs hnode hnew hfuel trivial
  exact ⟨t, hrun, ht, hsub⟩

end Sese
end Jstd
