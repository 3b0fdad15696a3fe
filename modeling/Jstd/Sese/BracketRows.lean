import Mathlib.Data.List.GetD
import Jstd.Sese.BracketBounds

/-!
# The rows of the bracket lists

What the four loops over children, caps and incident edges make of the row of a node.  None of them
touches the graph, and only the loop that ends back edges touches the labels.
-/

namespace Jstd
namespace Sese

open Foundation

variable {E : Type} {n : Nat} {dfs : VisitState} {node : Nat} {s t u : BracketState E}

namespace BracketState

/-- The graph, and every row but that of `node`, is the same. -/
structure SameGraph (node : Nat) (s t : BracketState E) : Prop where
  edges_eq : t.edges = s.edges
  incident_eq : t.incident = s.incident
  tree_eq : t.tree = s.tree
  hi_eq : t.hi = s.hi
  capping_eq : t.capping = s.capping
  length_eq : t.brackets.length = s.brackets.length
  row_eq : ∀ v, v ≠ node → t.row v = s.row v

structure SameLabels (s t : BracketState E) : Prop where
  classes_eq : t.classes = s.classes
  recentSize_eq : t.recentSize = s.recentSize
  recentClass_eq : t.recentClass = s.recentClass
  nextClass_eq : t.nextClass = s.nextClass

namespace SameGraph

theorem refl (node : Nat) (s : BracketState E) : SameGraph node s s :=
  ⟨rfl, rfl, rfl, rfl, rfl, rfl, fun _ _ => rfl⟩

theorem trans (h : SameGraph node s t) (h' : SameGraph node t u) : SameGraph node s u :=
  ⟨h'.edges_eq.trans h.edges_eq, h'.incident_eq.trans h.incident_eq, h'.tree_eq.trans h.tree_eq,
    h'.hi_eq.trans h.hi_eq, h'.capping_eq.trans h.capping_eq, h'.length_eq.trans h.length_eq,
    fun v hv => (h'.row_eq v hv).trans (h.row_eq v hv)⟩

theorem edgeAt_eq (h : SameGraph node s t) (eid : Nat) : t.edgeAt eid = s.edgeAt eid := by
  rw [edgeAt, edgeAt, h.edges_eq]

theorem capBelow_eq (h : SameGraph node s t) (eid : Nat) :
    t.capBelow dfs node eid = s.capBelow dfs node eid := by
  rw [capBelow, capBelow, h.edgeAt_eq]

theorem backBelow_eq (h : SameGraph node s t) (eid : Nat) :
    t.backBelow dfs node eid = s.backBelow dfs node eid := by
  rw [backBelow, backBelow, h.edgeAt_eq, h.tree_eq]

theorem backUp_eq (h : SameGraph node s t) (eid : Nat) :
    t.backUp dfs node eid = s.backUp dfs node eid := by
  rw [backUp, backUp, h.edgeAt_eq, h.tree_eq]

end SameGraph

theorem SameLabels.trans (h : SameLabels s t) (h' : SameLabels t u) : SameLabels s u :=
  ⟨h'.classes_eq.trans h.classes_eq, h'.recentSize_eq.trans h.recentSize_eq,
    h'.recentClass_eq.trans h.recentClass_eq, h'.nextClass_eq.trans h.nextClass_eq⟩

theorem row_setRow {v : Nat} (hv : v < s.brackets.length) (row : List Nat) (w : Nat) :
    (s.setRow v row).row w = if v = w then row else s.row w := by
  rw [BracketState.row, setRow, getD_set]
  by_cases h : v = w
  · rw [if_pos ⟨h, hv⟩, if_pos h]
  · rw [if_neg fun h' => h h'.1, if_neg h]
    rfl

theorem sameGraph_setRow (s : BracketState E) (node : Nat) (row : List Nat) :
    SameGraph node s (s.setRow node row) := by
  refine ⟨rfl, rfl, rfl, rfl, rfl, List.length_set, fun v hv => ?_⟩
  rw [BracketState.row, setRow, getD_set, if_neg fun h => hv h.1.symm]
  rfl

theorem sameLabels_setRow (s : BracketState E) (node : Nat) (row : List Nat) :
    SameLabels s (s.setRow node row) :=
  ⟨rfl, rfl, rfl, rfl⟩

theorem sameGraph_labelled (s : BracketState E) (eid : Nat) : SameGraph node s (s.labelled eid) := by
  rw [labelled]
  split
  · exact ⟨rfl, rfl, rfl, rfl, rfl, rfl, fun _ _ => rfl⟩
  · exact .refl node s

theorem row_labelled (s : BracketState E) (eid v : Nat) : (s.labelled eid).row v = s.row v := by
  rw [labelled]
  split
  · rfl
  · rfl

/-! ## Taking the children's rows -/

theorem foldl_took {children : List Nat} (hnodup : children.Nodup) (hnode : node ∉ children)
    (hlt : node < s.brackets.length) (hchildren : ∀ c ∈ children, c < s.brackets.length) :
    (children.foldl (took node) s).row node = s.row node ++ children.flatMap s.row ∧
      (∀ c ∈ children, (children.foldl (took node) s).row c = []) ∧
      (∀ v, v ≠ node → v ∉ children → (children.foldl (took node) s).row v = s.row v) ∧
      children.foldl (took node) s =
        { s with brackets := (children.foldl (took node) s).brackets } ∧
      (children.foldl (took node) s).brackets.length = s.brackets.length := by
  induction children generalizing s with
  | nil => exact ⟨by simp, by simp, fun _ _ _ => rfl, rfl, rfl⟩
  | cons c children ih =>
      obtain ⟨hc, hnodup⟩ := List.nodup_cons.1 hnodup
      rw [List.mem_cons, not_or] at hnode
      have hclt := hchildren c List.mem_cons_self
      have hlen : (s.took node c).brackets.length = s.brackets.length := by
        rw [took, setRow, List.length_set, setRow, List.length_set]
      have hrow : ∀ v, (s.took node c).row v =
          if v = node then s.row node ++ s.row c else if v = c then [] else s.row v := by
        intro v
        rw [took, row_setRow (by rw [setRow, List.length_set]; exact hlt), row_setRow hclt,
          row_setRow hclt, if_neg (Ne.symm hnode.1)]
        by_cases hv : v = node
        · rw [if_pos hv.symm, if_pos hv]
        · rw [if_neg (Ne.symm hv), if_neg hv]
          by_cases hvc : v = c
          · rw [if_pos hvc.symm, if_pos hvc]
          · rw [if_neg (Ne.symm hvc), if_neg hvc]
      -- The children that remain have not been touched.
      have hkept : ∀ v ∈ children, (s.took node c).row v = s.row v := by
        intro v hv
        rw [hrow, if_neg, if_neg]
        · rintro rfl
          exact hc hv
        · rintro rfl
          exact hnode.2 hv
      obtain ⟨h1, h2, h3, h4, h5⟩ := ih hnodup hnode.2 (by rw [hlen]; exact hlt)
        (fun v hv => by rw [hlen]; exact hchildren v (List.mem_cons_of_mem c hv))
      rw [List.foldl_cons]
      refine ⟨?_, ?_, ?_, ?_, h5.trans hlen⟩
      · rw [h1, hrow, if_pos rfl, List.flatMap_cons, List.append_assoc]
        congr 2
        exact List.flatMap_congr hkept
      · intro v hv
        rcases List.mem_cons.1 hv with rfl | hv
        · rw [h3 v (Ne.symm hnode.1) hc, hrow, if_neg (Ne.symm hnode.1), if_pos rfl]
        · exact h2 v hv
      · intro v hv hvc
        rw [List.mem_cons, not_or] at hvc
        rw [h3 v hv hvc.2, hrow, if_neg hv, if_neg hvc.1]
      · rw [h4]
        rfl

/-! ## Dropping brackets -/

/-- A loop of which each turn may drop its own number from the row. -/
theorem foldl_drop (step : BracketState E → Nat → BracketState E) (p : Nat → Bool)
    (hstep : ∀ t i, SameGraph node s t → SameGraph node t (step t i) ∧
      (step t i).row node =
        if p i then (t.row node).filter (fun candidate => candidate ≠ i) else t.row node)
    (is : List Nat) :
    SameGraph node s (is.foldl step s) ∧ (is.foldl step s).row node =
      (s.row node).filter fun x => !(decide (x ∈ is) && p x) := by
  -- Any state with the same graph may take the place of `s`.
  have main : ∀ (is : List Nat) (t : BracketState E), SameGraph node s t →
      SameGraph node s (is.foldl step t) ∧ (is.foldl step t).row node =
        (t.row node).filter fun x => !(decide (x ∈ is) && p x) := by
    intro is
    induction is with
    | nil =>
        intro t ht
        refine ⟨ht, ?_⟩
        simp
    | cons i is ih =>
        intro t ht
        obtain ⟨hsame, hrow⟩ := hstep t i ht
        obtain ⟨hsame', hrow'⟩ := ih (step t i) (ht.trans hsame)
        rw [List.foldl_cons]
        refine ⟨hsame', ?_⟩
        rw [hrow', hrow]
        cases hp : p i with
        | true =>
            rw [if_pos rfl, List.filter_filter]
            refine List.filter_congr fun x _ => ?_
            by_cases hx : x = i
            · simp [hx, hp]
            · simp [hx]
        | false =>
            rw [if_neg Bool.false_ne_true]
            refine List.filter_congr fun x _ => ?_
            by_cases hx : x = i
            · simp [hx, hp]
            · simp [hx]
  exact main is s (.refl node s)

theorem row_dropped (hlt : node < s.brackets.length) (eid : Nat) :
    (s.dropped node eid).row node = (s.row node).filter fun candidate => candidate ≠ eid := by
  rw [dropped, row_setRow hlt, if_pos rfl]

theorem foldl_capDropped (dfs : VisitState) (hlt : node < s.brackets.length) (is : List Nat) :
    SameGraph node s (is.foldl (capDropped dfs node) s) ∧
      SameLabels s (is.foldl (capDropped dfs node) s) ∧
      (is.foldl (capDropped dfs node) s).row node =
        (s.row node).filter fun x => !(decide (x ∈ is) && s.capBelow dfs node x) := by
  have hlabels : ∀ (is : List Nat) (t : BracketState E),
      SameLabels t (is.foldl (capDropped dfs node) t) := by
    intro is
    induction is with
    | nil => exact fun t => ⟨rfl, rfl, rfl, rfl⟩
    | cons i is ih =>
        intro t
        rw [List.foldl_cons]
        refine SameLabels.trans ?_ (ih _)
        rw [capDropped]
        split
        · exact sameLabels_setRow t node _
        · exact ⟨rfl, rfl, rfl, rfl⟩
  -- One turn drops the cap if it ends here.
  have hstep : ∀ t i, SameGraph node s t → SameGraph node t (t.capDropped dfs node i) ∧
      (t.capDropped dfs node i).row node = if s.capBelow dfs node i then
        (t.row node).filter (fun candidate => candidate ≠ i) else t.row node := by
    intro t i ht
    rw [capDropped, ht.capBelow_eq]
    split
    · exact ⟨sameGraph_setRow t node _, row_dropped (by rw [ht.length_eq]; exact hlt) i⟩
    · exact ⟨.refl node t, rfl⟩
  obtain ⟨hsame, hrow⟩ := foldl_drop _ _ hstep is
  exact ⟨hsame, hlabels is s, hrow⟩

theorem foldl_backEnded (dfs : VisitState) (hlt : node < s.brackets.length) (is : List Nat) :
    SameGraph node s (is.foldl (backEnded dfs node) s) ∧
      (is.foldl (backEnded dfs node) s).row node =
        (s.row node).filter fun x => !(decide (x ∈ is) && s.backBelow dfs node x) := by
  refine foldl_drop (backEnded dfs node) (s.backBelow dfs node) ?_ is
  intro t i ht
  rw [backEnded, ht.backBelow_eq]
  split
  · refine ⟨(sameGraph_setRow t node _).trans (sameGraph_labelled _ i), ?_⟩
    rw [row_labelled]
    exact row_dropped (by rw [ht.length_eq]; exact hlt) i
  · exact ⟨.refl node t, rfl⟩

/-! ## Beginning brackets -/

theorem foldl_backBegun (dfs : VisitState) (hlt : node < s.brackets.length) (is : List Nat) :
    SameGraph node s (is.foldl (backBegun dfs node) s) ∧
      SameLabels s (is.foldl (backBegun dfs node) s) ∧
      (is.foldl (backBegun dfs node) s).row node =
        s.row node ++ is.filter (s.backUp dfs node) := by
  have main : ∀ (is : List Nat) (t : BracketState E), SameGraph node s t →
      SameGraph node s (is.foldl (backBegun dfs node) t) ∧
        SameLabels t (is.foldl (backBegun dfs node) t) ∧
        (is.foldl (backBegun dfs node) t).row node =
          t.row node ++ is.filter (s.backUp dfs node) := by
    intro is
    induction is with
    | nil =>
        intro t ht
        exact ⟨ht, ⟨rfl, rfl, rfl, rfl⟩, (List.append_nil _).symm⟩
    | cons i is ih =>
        intro t ht
        rw [List.foldl_cons, backBegun, ht.backUp_eq]
        cases hup : s.backUp dfs node i with
        | true =>
            rw [if_pos rfl, List.filter_cons_of_pos hup]
            obtain ⟨hsame, hlabels, hrow⟩ := ih (t.setRow node (t.row node ++ [i]))
              (ht.trans (sameGraph_setRow t node _))
            refine ⟨hsame, (sameLabels_setRow t node _).trans hlabels, ?_⟩
            rw [hrow, row_setRow (by rw [ht.length_eq]; exact hlt), if_pos rfl, List.append_assoc]
            rfl
        | false =>
            rw [if_neg Bool.false_ne_true, List.filter_cons_of_neg (by rw [hup]; exact Bool.false_ne_true)]
            exact ih t ht
  exact main is s (.refl node s)

/-! ## Adding a cap -/

section

variable {a : Nat}

theorem lt_capped {x : Nat} (hx : x < (s.capped dfs node a).edges.length) :
    x < s.edges.length ∨ x = s.edges.length := by
  rw [capped, List.length_append, List.length_singleton] at hx
  exact Nat.lt_succ_iff_lt_or_eq.1 hx

theorem edgeAt_capped {x : Nat} (hx : x < s.edges.length) :
    (s.capped dfs node a).edgeAt x = s.edgeAt x :=
  List.getD_append _ _ _ _ hx

theorem edgeAt_capped_self :
    (s.capped dfs node a).edgeAt s.edges.length = ⟨node, dfs.preorder.getD a 0, none⟩ := by
  rw [capped, edgeAt, List.getD_append_right _ _ _ _ (Nat.le_refl _), Nat.sub_self]
  rfl

/-- The cap is filed at its other end too. -/
theorem incident_capped {v : Nat} (hv : v ≠ node)
    (hlt : dfs.preorder.getD a 0 < s.incident.length) :
    (s.capped dfs node a).incident.getD v [] =
      if dfs.preorder.getD a 0 = v then s.incident.getD v [] ++ [s.edges.length]
      else s.incident.getD v [] := by
  simp only [capped]
  rw [getD_set]
  by_cases hva : dfs.preorder.getD a 0 = v
  · rw [if_pos ⟨hva, by rw [List.length_set]; exact hlt⟩, if_pos hva, hva, getD_set,
      if_neg fun h => hv h.1.symm]
  · rw [if_neg fun h => hva h.1, if_neg hva, getD_set, if_neg fun h => hv h.1.symm]

theorem row_capped (hlt : node < s.brackets.length) (v : Nat) :
    (s.capped dfs node a).row v = if node = v then s.row node ++ [s.edges.length] else s.row v :=
  row_setRow hlt _ v

end

end BracketState

end Sese
end Jstd
