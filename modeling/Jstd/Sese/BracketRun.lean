import Jstd.Sese.BracketNames

/-!
# The bracket-list pass, from the search to the labels

One turn of the loop keeps the rows (`Bracketing`), the names (`Labelling`) and the classes of the
back edges that end (`Ended`); over the whole preorder in reverse they give every edge a class, and
two edges one class exactly when they have one key.
-/

namespace Jstd
namespace Sese

open Foundation DepthFirstTree

variable {E : Type} {edges : List (IEdge E)} {incident : List (List Nat)} {n k node root : Nat}
  {dfs : VisitState} {T : DepthFirstTree (edgeGraph edges)} {s : BracketState E}

/-! ## One turn -/

namespace BracketState

/-- Up to the loop over the back edges that end, no label changes. -/
theorem collected_eq (hnodup : (dfs.childrenOf node).Nodup) (hnode : node ∉ dfs.childrenOf node)
    (hlt : node < s.brackets.length) (hchildren : ∀ c ∈ dfs.childrenOf node, c < s.brackets.length) :
    ∃ t, s.collected dfs node = (s.incident.getD node []).foldl (backEnded dfs node) t ∧
      t.edges = s.edges ∧ t.tree = s.tree ∧ t.brackets.length = s.brackets.length ∧
      SameLabels s t := by
  obtain ⟨t₁, ht₁⟩ : ∃ t, (dfs.childrenOf node).foldl (took node) (s.hiSet dfs node) = t := ⟨_, rfl⟩
  obtain ⟨-, -, -, hgraph₁, hlen₁⟩ := foldl_took (s := s.hiSet dfs node) hnodup hnode hlt hchildren
  rw [ht₁] at hgraph₁ hlen₁
  have hlt₁ : node < t₁.brackets.length := by rw [hlen₁]; exact hlt
  obtain ⟨hsame, hlabels, -⟩ := foldl_capDropped dfs hlt₁ t₁.capping
  refine ⟨t₁.capping.foldl (capDropped dfs node) t₁, ?_, ?_, ?_, ?_, ?_⟩
  · rw [collected, ht₁]
  · rw [hsame.edges_eq, hgraph₁]
    rfl
  · rw [hsame.tree_eq, hgraph₁]
    rfl
  · rw [hsame.length_eq, hlen₁]
    rfl
  · refine SameLabels.trans ?_ hlabels
    rw [hgraph₁]
    exact ⟨rfl, rfl, rfl, rfl⟩

end BracketState

/-- What the loop has done with the nodes from `k` on. -/
structure Processed (incident : List (List Nat)) (n : Nat) (dfs : VisitState)
    (T : DepthFirstTree (edgeGraph edges)) (k : Nat) (s : BracketState E) : Prop where
  bracketing : Bracketing edges incident n dfs T k s
  labelling : Labelling T k k s
  ended : Ended T k s

section

variable (h : Processed incident n dfs T (k + 1) s) (hT : IsSearchTree edges incident n dfs T)
  (hloop : Loopless edges) (hcyclic : (edgeGraph edges).Cyclic) (hnode : T.Mem node)
  (hk : T.number node = k)
include h hT hloop hnode hk

namespace Processed

/-- Every back edge that ends at the node is given a class. -/
theorem gathered : ∃ t, (s.incident.getD node []).foldl (BracketState.backBegun dfs node)
      (s.collected dfs node) = t ∧ BracketState.Gathered dfs node s t ∧ Labelling T (k + 1) k t ∧
      Ended T k t := by
  have hlt : ∀ {v}, T.Mem v → v < s.brackets.length := fun hv => h.bracketing.lt_brackets hT hv
  have hself : node ∉ dfs.childrenOf node := fun hmem => (hT.mem_childrenOf.1 hmem).ne rfl
  have hchildren : ∀ c ∈ dfs.childrenOf node, c < s.brackets.length :=
    fun c hc => hlt (hT.mem_childrenOf.1 hc).mem
  obtain ⟨t, hcollected, hedges, htree, hlen, hlabels⟩ :=
    BracketState.collected_eq (hT.childrenOf_nodup node) hself (hlt hnode) hchildren
  have hbelow : ∀ x, t.backBelow dfs node x = s.backBelow dfs node x := fun x => by
    rw [BracketState.backBelow, BracketState.backBelow, BracketState.edgeAt, BracketState.edgeAt,
      hedges, htree]
  -- The loop labels the back edges from below that end here.
  have hback : ∀ x ∈ s.incident.getD node [], x < edges.length →
      (t.backBelow dfs node x = true ↔ T.IsBack x ∧ T.up x = node) := by
    intro x hx hlt
    rw [hbelow]
    exact h.bracketing.backBelow_iff hT hloop hnode hlt
      ((h.bracketing.incident_edge_iff hnode hk hlt).1 hx)
  have ht : Labelling T (k + 1) k t :=
    (h.labelling.congr hedges hlabels).mono (Nat.le_succ k)
  obtain ⟨hfold, hkeep, hclosed⟩ := Labelling.foldl_backEnded (s.incident.getD node []) (by
      intro x hx hx' hlt
      obtain ⟨hback, hup⟩ := (hback x hx hlt).1 hx'
      exact ⟨hback, by rw [hup, hk]⟩) t (.refl node t) ht
  rw [← hcollected] at hfold hkeep hclosed
  have hlt₃ : node < (s.collected dfs node).brackets.length := by
    have hsame := (BracketState.foldl_backEnded dfs (s := t) (by rw [hlen]; exact hlt hnode)
      (s.incident.getD node [])).1
    rw [hcollected, hsame.length_eq, hlen]
    exact hlt hnode
  obtain ⟨hsame, hlabels', -⟩ := BracketState.foldl_backBegun dfs hlt₃
    (s.incident.getD node [])
  refine ⟨_, rfl, h.bracketing.gathered hT hnode, hfold.congr hsame.edges_eq hlabels', ?_⟩
  intro i hi hle
  rw [BracketState.label, hlabels'.classes_eq]
  -- An edge that ends here is labelled now, the others were before.
  by_cases hup : T.up i = node
  · have hmem := (h.bracketing.incident_edge_iff hnode hk hi.isEdge).2
      (Bracketing.mem_incident hT hi.isEdge (.inr hup))
    exact hclosed i hmem hi.isEdge ((hback i hmem hi.isEdge).2 ⟨hi, hup⟩)
  · have hne := Bracketing.number_ne hk (anc_up_low hi.isEdge).left_mem hnode hup
    refine hkeep i hi.isEdge ?_
    have hlabel := h.ended i hi (by omega)
    rw [BracketState.label] at hlabel ⊢
    rw [hlabels.classes_eq]
    exact hlabel

include hcyclic

/-- One turn of the loop, up to the name. -/
theorem listed {edges' : List (IEdge E)} (hb : Bracketed dfs n edges' (s.listed dfs node)) :
    Bracketing edges incident n dfs T k (s.listed dfs node) ∧
      Labelling T (k + 1) k (s.listed dfs node) ∧ Ended T k (s.listed dfs node) := by
  obtain ⟨t, heq, hgathered, hlabelling, hended⟩ := h.gathered hT hloop hnode hk
  refine ⟨h.bracketing.listed hT hloop hcyclic hnode hk hb, ?_⟩
  simp only [BracketState.listed, heq]
  split
  · refine ⟨hlabelling.capped ?_ ?_ ?_ ?_ (by omega), ?_⟩
    · rw [hgathered.recentSize_eq, hgathered.edges_eq]
      exact h.bracketing.bracketed.recentSize_length
    · rw [hgathered.recentClass_eq, hgathered.edges_eq]
      exact h.bracketing.bracketed.recentClass_length
    · rw [hgathered.edges_eq]
      exact h.bracketing.le_length
    · exact fun v hv => h.bracketing.lists v hv.mem hv.ne_root hv.le
    · intro i hi hle
      rw [Labelling.label_capped hlabelling.le_length hi.isEdge]
      exact hended i hi hle
  · exact ⟨hlabelling, hended⟩

theorem turn : ∃ t, (processNode dfs node).run s = (.ok true, t) ∧
    Processed incident n dfs T k t := by
  obtain ⟨edges', hb, -, hrun⟩ := processNode_run hT.visited h.bracketing.le_length
    h.bracketing.bracketed (hT.lt_of_mem hnode)
  obtain ⟨hbracketing, hlabelling, hended⟩ := h.listed hT hloop hcyclic hnode hk hb
  by_cases hroot : node = T.root
  · subst hroot
    rw [hT.parentEdge_root] at hrun
    exact ⟨_, hrun, hbracketing, hlabelling.of_root hk, hended⟩
  · have hlist := hbracketing.row_list node hnode hroot hk.ge
      (by rw [← hk]; exact T.parent_lt hnode hroot)
    obtain ⟨x, hx⟩ := hlist.exists_last hcyclic hnode hroot
    rw [List.getLast?_map, Option.map_eq_some_iff] at hx
    obtain ⟨top, htop, -⟩ := hx
    rw [hT.parentEdge_eq hnode hroot, htop] at hrun
    have hnaming : Naming incident n dfs T k node top (s.listed dfs node) :=
      ⟨hbracketing, hlabelling, hnode, hroot, hk, htop⟩
    refine ⟨_, hrun, hbracketing.named _ _ _, hnaming.named hcyclic, ?_⟩
    intro i hi hle
    exact hnaming.label_named_ne hcyclic (hended i hi hle)

end Processed

end

/-! ## The whole loop -/

/-- The nodes before `k`, last first. -/
theorem bracketLoop_run (hT : IsSearchTree edges incident n dfs T) (hloop : Loopless edges)
    (hcyclic : (edgeGraph edges).Cyclic) :
    ∀ k ≤ dfs.preorder.length, ∀ s, Processed incident n dfs T k s →
      ∃ t, (bracketLoop dfs (dfs.preorder.take k).reverse).run s = (.ok true, t) ∧
        Processed incident n dfs T 0 t := by
  intro k
  induction k with
  | zero =>
      intro _ s h
      rw [List.take_zero, List.reverse_nil]
      exact ⟨s, rfl, h⟩
  | succ k ih =>
      intro hle s h
      obtain ⟨node, hnode⟩ : ∃ node, dfs.preorder[k]? = some node :=
        ⟨_, List.getElem?_eq_getElem hle⟩
      obtain ⟨hmem, hk⟩ := hT.number_of_preorder hnode
      obtain ⟨t, hrun, ht⟩ := h.turn hT hloop hcyclic hmem hk
      rw [List.take_add_one, hnode, Option.toList_some, List.reverse_append, List.reverse_singleton,
        List.singleton_append, bracketLoop, Method.run_bind_of_ok hrun]
      exact ih (Nat.le_of_succ_le hle) t ht

/-! ## Where the loop starts -/

theorem fileEdges_files (hbounds : InBounds edges n) (hloop : Loopless edges) :
    ∃ incident, fileEdges edges.zipIdx (List.replicate n []) = .ok incident ∧
      incident.length = n ∧ Files edges incident ∧
      ∀ v, (incident.getD v []).Pairwise fun i j => i < j := by
  obtain ⟨incident, hrun, hlen, hrows⟩ := fileEdges_rows (n := n) edges.zipIdx
    (fun p hp => hbounds p.1 (List.mem_of_getElem? (List.mem_zipIdx_iff_getElem?.1 hp)))
    (List.replicate n []) List.length_replicate
  -- Row `v` lists the edges at `v` in their order.
  have hrow : ∀ v, incident.getD v [] = edges.zipIdx.flatMap (incidences v) := by
    intro v
    rw [hrows, getD_replicate, List.nil_append]
  refine ⟨incident, hrun, hlen, ?_, ?_⟩
  · intro v i
    rw [hrow, List.mem_flatMap]
    constructor
    · rintro ⟨p, hp, hi⟩
      obtain ⟨rfl, hends⟩ := mem_incidences.1 hi
      exact ⟨p.1, List.mem_zipIdx_iff_getElem?.1 hp, hends⟩
    · rintro ⟨edge, hedge, hends⟩
      exact ⟨(edge, i), List.mem_zipIdx_iff_getElem?.2 hedge, mem_incidences.2 ⟨rfl, hends⟩⟩
  · intro v
    rw [hrow, List.pairwise_flatMap]
    constructor
    · -- An edge without a loop is filed once at most.
      intro p hp
      have hne := hloop p.1 (List.mem_of_getElem? (List.mem_zipIdx_iff_getElem?.1 hp))
      rw [incidences]
      by_cases hfrom : p.1.fromNode = v
      · rw [if_pos hfrom, if_neg fun hto => hne (hfrom.trans hto.symm), List.append_nil]
        exact List.pairwise_singleton _ _
      · rw [if_neg hfrom, List.nil_append]
        split
        · exact List.pairwise_singleton _ _
        · exact List.Pairwise.nil
    · have hsorted : edges.zipIdx.Pairwise fun p q => p.2 < q.2 := by
        rw [← List.pairwise_map (f := Prod.snd) (R := fun i j => i < j), List.zipIdx_map_snd]
        exact List.pairwise_lt_range'
      refine hsorted.imp ?_
      intro p q hlt i hi j hj
      rw [(mem_incidences.1 hi).1, (mem_incidences.1 hj).1]
      exact hlt

theorem processed_new (hT : IsSearchTree edges incident n dfs T) (hbounds : InBounds edges n)
    (hlen : incident.length = n)
    (hsorted : ∀ v, (incident.getD v []).Pairwise fun i j => i < j) :
    Processed incident n dfs T dfs.preorder.length (BracketState.new edges n incident dfs.tree) := by
  obtain ⟨s, hs⟩ : ∃ s, BracketState.new edges n incident dfs.tree = s := ⟨_, rfl⟩
  have hlt : ∀ v i, i ∈ incident.getD v [] → i < edges.length := by
    intro v i hi
    obtain ⟨edge, hedge, -⟩ := (hT.files v i).1 hi
    exact (List.getElem?_eq_some_iff.1 hedge).1
  have hb : Bracketed dfs n edges s := hs ▸ new_bracketed hbounds hT.visited hlen hlt
  have hedges : s.edges = edges := hb.edges_eq
  have hincident : s.incident = incident := hs ▸ rfl
  have hlabel : ∀ i, s.label i = 0 := fun i => by
    rw [← hs]
    exact getD_replicate _ _ _
  -- No node has been processed.
  have hnone : ∀ {v}, T.Mem v → ¬ dfs.preorder.length ≤ T.number v :=
    fun hv => Nat.not_le_of_lt (hT.number_lt hv)
  rw [hs]
  refine ⟨?_, ?_, ?_⟩
  · constructor
    · rw [hedges]
      exact hb
    · rw [hedges]
    · intro i _
      rw [← hs]
      rfl
    · intro x hx hx'
      rw [hedges] at hx'
      exact absurd hx (Nat.not_le_of_lt hx')
    · intro x y hx hx'
      rw [hedges] at hx'
      exact absurd hx (Nat.not_le_of_lt hx')
    · intro x
      rw [← hs]
      refine iff_of_false List.not_mem_nil ?_
      exact fun h => Nat.not_le_of_lt h.2 h.1
    · intro v _ _ i _
      rw [hincident]
    · intro v _ _ x hx hle
      rw [hincident] at hx
      exact absurd hle (Nat.not_le_of_lt (hlt v x hx))
    · intro v _ _
      rw [hincident]
      exact hsorted v
    · exact fun v hv hle => absurd hle (hnone hv)
    · intro v _ _
      rw [← hs]
      exact getD_replicate _ _ _
    · exact fun v hv _ hle => absurd hle (hnone hv)
    · exact fun v hv _ hle => absurd hle (hnone hv)
  · constructor
    · rw [hb.classes_length]
    · intro i _
      rw [hlabel, ← hs]
      exact Nat.zero_lt_one
    · exact fun i _ j _ hi => absurd (hlabel i) hi
    · exact fun v hv _ => iff_of_false (fun h => h (hlabel _)) (hnone hv)
    · exact fun v hv => absurd hv.le (hnone hv.mem)
    · exact fun i _ hi => absurd (hlabel i) hi
    · intro x _ hx
      rw [← hs] at hx
      exact absurd (getD_replicate _ _ _) hx
    · exact fun x _ _ v hv => absurd hv.le (hnone hv.mem)
  · exact fun i hi hle => absurd hle (hnone (anc_up_low hi.isEdge).left_mem)

/-! ## The pass -/

/-- The search that the loop starts from. -/
def depthFirst (edges : List (IEdge E)) (n root : Nat) : Except Panic VisitState := do
  let incident ← fileEdges edges.zipIdx (List.replicate n [])
  match (visit edges incident (n + 1) root).run (VisitState.new n edges.length) with
  | (.error e, _) => .error e
  | (.ok _, dfs) => return dfs

/-- The labels of two edges are equal exactly when their keys in the tree of the search are. -/
theorem bracketClasses_keys (hbounds : InBounds edges n) (hroot : root < n)
    (hloop : Loopless edges) (hcyclic : (edgeGraph edges).Cyclic)
    (hreach : ∀ i, (edgeGraph edges).IsEdge i →
      (edgeGraph edges).Connected root ((edgeGraph edges).src i)) :
    ∃ (dfs : VisitState) (incident : List (List Nat)) (T : DepthFirstTree (edgeGraph edges))
        (classes : List Nat),
      depthFirst edges n root = .ok dfs ∧ IsSearchTree edges incident n dfs T ∧
        T.HasBracketLists ∧ bracketClasses edges n root = .ok (some classes) ∧
        ∀ i < edges.length, ∀ j < edges.length,
          (classes.getD i 0 = classes.getD j 0 ↔ T.key i = T.key j) := by
  obtain ⟨incident, hfile, hlen, hfiles, hsorted⟩ := fileEdges_files hbounds hloop
  obtain ⟨dfs, hvisit, hsearched⟩ := visit_searched hbounds hlen hfiles hroot
  have hT := hsearched.isSearchTree hreach
  obtain ⟨T, hTree⟩ : ∃ T, hsearched.tree hreach = T := ⟨_, rfl⟩
  rw [hTree] at hT
  obtain ⟨t, hrun, ht⟩ := bracketLoop_run hT hloop hcyclic dfs.preorder.length (Nat.le_refl _) _
    (processed_new hT hbounds hlen hsorted)
  rw [List.take_length] at hrun
  refine ⟨dfs, incident, T, t.classes.take edges.length, ?_, hT, ?_, ?_, ?_⟩
  · simp only [depthFirst, hfile, Bind.bind, Except.bind, hvisit]
    rfl
  · exact fun v hv hroot => ht.bracketing.lists v hv hroot (Nat.zero_le _)
  · simp only [bracketClasses, hfile, Bind.bind, Except.bind, hvisit, hrun]
    rfl
  · have hlabel : ∀ i < edges.length, (t.classes.take edges.length).getD i 0 = t.label i := by
      intro i hi
      rw [BracketState.label, List.getD_eq_getElem?_getD, List.getElem?_take_of_lt hi,
        ← List.getD_eq_getElem?_getD]
    -- Every edge has its label by the end: a tree edge at its node, another where it ends.
    have hne : ∀ i < edges.length, t.label i ≠ 0 := by
      intro i hi
      by_cases htree : T.IsTree i
      · obtain ⟨v, hv, hroot, rfl⟩ := htree
        exact (ht.labelling.tree_iff v hv hroot).2 (Nat.zero_le _)
      · exact ht.ended i ⟨hi, htree⟩ (Nat.zero_le _)
    intro i hi j hj
    rw [hlabel i hi, hlabel j hj]
    exact ht.labelling.label_eq_iff i hi j hj (hne i hi) (hne j hj)

end Sese
end Jstd
