import Jstd.Foundation.BracketKey
import Jstd.Sese.BracketRows
import Jstd.Sese.SearchTree

/-!
# The loop computes the bracket lists

`Bracketing k` holds before the node numbered `k - 1` is processed: the nodes from `k` on have their
caps and their heights, and those whose parent is still to come have their bracket lists as rows.
One turn of the loop is `isBracketList_of_children` for its node.
-/

namespace Jstd
namespace Sese

open Foundation DepthFirstTree

variable {E : Type} {edges : List (IEdge E)} {incident : List (List Nat)} {n k node : Nat}
  {dfs : VisitState} {T : DepthFirstTree (edgeGraph edges)} {s t : BracketState E}

/-! ## The vectors of the search -/

namespace IsSearchTree

variable {u v c : Nat}

theorem lt_of_mem (h : IsSearchTree edges incident n dfs T) (hv : T.Mem v) : v < n :=
  h.visited.preorder_lt v (h.mem_iff.1 hv)

theorem mem_childrenOf (h : IsSearchTree edges incident n dfs T) :
    c ∈ dfs.childrenOf v ↔ T.IsChild v c := by
  rw [VisitState.childrenOf, List.mem_filter, decide_eq_true_eq, ← h.mem_iff]
  constructor
  · rintro ⟨hc, hparent⟩
    have hne : c ≠ T.root := by
      rintro rfl
      rw [h.parent_root] at hparent
      cases hparent
    rw [h.parent_eq hc hne] at hparent
    exact ⟨hc, hne, Option.some.inj hparent⟩
  · rintro ⟨hc, hne, rfl⟩
    exact ⟨hc, h.parent_eq hc hne⟩

theorem number_lt (h : IsSearchTree edges incident n dfs T) (hv : T.Mem v) :
    T.number v < dfs.preorder.length :=
  (List.getElem?_eq_some_iff.1 (h.preorder_eq hv)).1

theorem number_of_preorder (h : IsSearchTree edges incident n dfs T) {j : Nat}
    (hj : dfs.preorder[j]? = some v) : T.Mem v ∧ T.number v = j := by
  have hv : T.Mem v := h.mem_iff.2 (List.mem_of_getElem? hj)
  refine ⟨hv, ?_⟩
  exact (List.getElem?_inj (h.number_lt hv) h.nodup).1 ((h.preorder_eq hv).trans hj.symm)

theorem preorder_sorted (h : IsSearchTree edges incident n dfs T) :
    dfs.preorder.Pairwise fun u v => T.number u < T.number v := by
  rw [List.pairwise_iff_getElem]
  intro i j hi hj hlt
  rw [(h.number_of_preorder (List.getElem?_eq_getElem hi)).2,
    (h.number_of_preorder (List.getElem?_eq_getElem hj)).2]
  exact hlt

theorem childrenOf_sorted (h : IsSearchTree edges incident n dfs T) (v : Nat) :
    (dfs.childrenOf v).Pairwise fun c d => T.number c < T.number d :=
  h.preorder_sorted.filter _

theorem childrenOf_nodup (h : IsSearchTree edges incident n dfs T) (v : Nat) :
    (dfs.childrenOf v).Nodup :=
  h.nodup.filter _

theorem descends_iff (h : IsSearchTree edges incident n dfs T) (hu : T.Mem u) (hv : T.Mem v) :
    descends dfs v u = true ↔ v ≠ u ∧ T.Anc u v := by
  rw [descends, decide_eq_true_eq, h.number_eq hu, h.number_eq hv, h.fin_eq, WithTop.coe_le_coe,
    WithTop.coe_lt_coe]
  constructor
  · rintro ⟨hne, hle, hlt⟩
    exact ⟨hne, hu, hv, hle, hlt⟩
  · rintro ⟨hne, hanc⟩
    exact ⟨hne, hanc.le, hanc.lt_fin⟩

end IsSearchTree

/-! ## The ends of an edge -/

/-- No edge leads back to where it starts. -/
def Loopless (edges : List (IEdge E)) : Prop :=
  ∀ edge ∈ edges, edge.fromNode ≠ edge.toNode

theorem Loopless.up_ne_low (hloop : Loopless edges) {i : Nat} {edge : IEdge E}
    (hi : edges[i]? = some edge) : T.up i ≠ T.low i := by
  have hne := hloop edge (List.mem_of_getElem? hi)
  rw [up, low, edgeGraph_src hi, edgeGraph_dst hi]
  split
  · exact hne
  · exact Ne.symm hne

theorem Loopless.number_up_lt (hloop : Loopless edges) {i : Nat}
    (hi : (edgeGraph edges).IsEdge i) : T.number (T.up i) < T.number (T.low i) := by
  obtain ⟨edge, hedge⟩ := exists_edge hi
  exact (anc_up_low hi).lt_of_ne (hloop.up_ne_low hedge)

/-- A node on an edge is its lower or its upper end, and the other one is the other end. -/
theorem Loopless.ends (hloop : Loopless edges) {i v : Nat} {edge : IEdge E}
    (hi : edges[i]? = some edge) (hv : edge.fromNode = v ∨ edge.toNode = v) :
    (T.low i = v ∧ other edge v = T.up i) ∨ (T.up i = v ∧ other edge v = T.low i) := by
  have hne := hloop edge (List.mem_of_getElem? hi)
  rw [up, low, edgeGraph_src hi, edgeGraph_dst hi, other]
  rcases hv with rfl | rfl
  · rw [if_pos rfl]
    split
    · exact .inr ⟨rfl, rfl⟩
    · exact .inl ⟨rfl, rfl⟩
  · rw [if_neg hne]
    split
    · exact .inl ⟨rfl, rfl⟩
    · exact .inr ⟨rfl, rfl⟩

theorem ends_of_low_up {i v : Nat} {edge : IEdge E} (hi : edges[i]? = some edge)
    (hv : T.low i = v ∨ T.up i = v) : edge.fromNode = v ∨ edge.toNode = v := by
  rw [up, low, edgeGraph_src hi, edgeGraph_dst hi] at hv
  rcases hv with rfl | rfl
  · split
    · exact .inr rfl
    · exact .inl rfl
  · split
    · exact .inl rfl
    · exact .inr rfl

/-! ## Minima -/

theorem minOrMax_le_iff {xs : List (WithTop Nat)} {j : Nat} :
    minOrMax xs ≤ WithTop.some j ↔ ∃ x ∈ xs, x ≤ WithTop.some j := by
  induction xs with
  | nil =>
      refine iff_of_false ?_ (by simp)
      rw [minOrMax, top_le_iff]
      exact WithTop.coe_ne_top
  | cons x xs ih => rw [minOrMax, min_le_iff, ih, List.exists_mem_cons_iff]

theorem minOrMax_le_of_mem {xs : List (WithTop Nat)} {x : WithTop Nat} (h : x ∈ xs) :
    minOrMax xs ≤ x := by
  induction xs with
  | nil => cases h
  | cons y xs ih =>
      rw [minOrMax]
      rcases List.mem_cons.1 h with rfl | h
      · exact min_le_left _ _
      · exact (min_le_right _ _).trans (ih h)

theorem minOrMax_mem {xs : List (WithTop Nat)} (h : xs ≠ []) : minOrMax xs ∈ xs := by
  induction xs with
  | nil => exact absurd rfl h
  | cons x xs ih =>
      rw [minOrMax]
      by_cases hxs : xs = []
      · subst hxs
        rw [minOrMax, min_top_right]
        exact List.mem_cons_self
      · rcases min_choice x (minOrMax xs) with hmin | hmin
        · rw [hmin]
          exact List.mem_cons_self
        · rw [hmin]
          exact List.mem_cons_of_mem x (ih hxs)

/-- The least value but one is at most `j` when two elements have values of at most `j`. -/
theorem minOrMax_erase_le_iff {l : List Nat} (hnodup : l.Nodup) (f : Nat → WithTop Nat) {j : Nat} :
    minOrMax ((l.map f).erase (minOrMax (l.map f))) ≤ WithTop.some j ↔
      ∃ c ∈ l, ∃ d ∈ l, c ≠ d ∧ f c ≤ WithTop.some j ∧ f d ≤ WithTop.some j := by
  by_cases hnil : l = []
  · subst hnil
    simp [minOrMax]
  · have hmap : l.map f ≠ [] := by simpa using hnil
    -- `e` has the least value, and erasing it leaves the values of the others.
    obtain ⟨e, he, hmin⟩ := List.mem_map.1 (minOrMax_mem hmap)
    have hperm : l.Perm (e :: l.erase e) := List.perm_cons_erase he
    have herase : ((l.map f).erase (minOrMax (l.map f))).Perm ((l.erase e).map f) := by
      rw [← hmin]
      refine ((hperm.map f).erase (f e)).trans ?_
      rw [List.map_cons, List.erase_cons_head]
    have hmem : ∀ d, d ∈ l.erase e ↔ d ≠ e ∧ d ∈ l := fun d => hnodup.mem_erase_iff
    rw [minOrMax_le_iff]
    constructor
    · rintro ⟨y, hy, hyj⟩
      obtain ⟨d, hd, rfl⟩ := List.mem_map.1 (herase.mem_iff.1 hy)
      obtain ⟨hde, hdl⟩ := (hmem d).1 hd
      refine ⟨e, he, d, hdl, Ne.symm hde, ?_, hyj⟩
      rw [hmin]
      exact (minOrMax_le_of_mem (List.mem_map.2 ⟨d, hdl, rfl⟩)).trans hyj
    · rintro ⟨c, hc, d, hd, hne, hcj, hdj⟩
      have hin : ∀ x ∈ l, x ≠ e → f x ∈ (l.map f).erase (minOrMax (l.map f)) := by
        intro x hx hxe
        exact herase.mem_iff.2 (List.mem_map.2 ⟨x, (hmem x).2 ⟨hxe, hx⟩, rfl⟩)
      by_cases hce : c = e
      · exact ⟨f d, hin d hd fun h => hne (hce.trans h.symm), hdj⟩
      · exact ⟨f c, hin c hc hce, hcj⟩

/-! ## The invariant -/

/-- What the number of a bracket stands for. -/
def BracketState.item (m : Nat) (self : BracketState E) (x : Nat) : Item Nat Nat :=
  if x < m then .edge x else .cap (self.edgeAt x).fromNode

/-- `x` is the cap of a node from `k` on. -/
structure CapFrom (T : DepthFirstTree (edgeGraph edges)) (k : Nat) (s : BracketState E) (x : Nat) :
    Prop where
  hasCap : T.HasCap (s.edgeAt x).fromNode
  le : k ≤ T.number (s.edgeAt x).fromNode
  to_mem : T.Mem (s.edgeAt x).toNode
  to_number : T.number (s.edgeAt x).toNode = T.capNumber (s.edgeAt x).fromNode

theorem CapFrom.congr {k' x : Nat} (h : CapFrom T k s x) (hle : k' ≤ k)
    (hedge : t.edgeAt x = s.edgeAt x) : CapFrom T k' t x := by
  obtain ⟨hcap, hfrom, hto, hnumber⟩ := h
  rw [← hedge] at hcap hfrom hto hnumber
  exact ⟨hcap, hle.trans hfrom, hto, hnumber⟩

namespace BracketState

theorem item_of_edgeAt {m x : Nat} (hedge : t.edgeAt x = s.edgeAt x) : t.item m x = s.item m x := by
  rw [item, item, hedge]

theorem item_capped_self {m a : Nat} (hle : m ≤ s.edges.length) :
    (s.capped dfs node a).item m s.edges.length = .cap node := by
  rw [item, if_neg (Nat.not_lt_of_le hle), edgeAt_capped_self]

end BracketState

structure Bracketing (edges : List (IEdge E)) (incident : List (List Nat)) (n : Nat)
    (dfs : VisitState) (T : DepthFirstTree (edgeGraph edges)) (k : Nat) (s : BracketState E) :
    Prop where
  bracketed : Bracketed dfs n s.edges s
  extends_edges : edges <+: s.edges
  tree_eq : ∀ i < edges.length, s.tree.getD i false = dfs.tree.getD i false
  capFrom : ∀ x, edges.length ≤ x → x < s.edges.length → CapFrom T k s x
  cap_inj : ∀ x y, edges.length ≤ x → x < s.edges.length → edges.length ≤ y →
    y < s.edges.length → (s.edgeAt x).fromNode = (s.edgeAt y).fromNode → x = y
  capping_mem : ∀ x, x ∈ s.capping ↔ edges.length ≤ x ∧ x < s.edges.length
  incident_edge : ∀ v, T.Mem v → T.number v < k → ∀ i < edges.length,
    (i ∈ s.incident.getD v [] ↔ i ∈ incident.getD v [])
  incident_cap : ∀ v, T.Mem v → T.number v < k → ∀ x ∈ s.incident.getD v [], edges.length ≤ x →
    (s.edgeAt x).toNode = v
  incident_sorted : ∀ v, T.Mem v → T.number v < k →
    (s.incident.getD v []).Pairwise fun i j => i < j
  hi_le : ∀ v, T.Mem v → k ≤ T.number v → ∀ j : Nat,
    (s.hi.getD v ⊤ ≤ WithTop.some j ↔ T.Reaches v j)
  row_empty : ∀ v, T.Mem v → T.number v < k → s.row v = []
  row_list : ∀ v, T.Mem v → v ≠ T.root → k ≤ T.number v → T.number (T.parent v) < k →
    T.IsBracketList v ((s.row v).map (s.item edges.length))
  lists : ∀ v, T.Mem v → v ≠ T.root → k ≤ T.number v → T.IsBracketList v (T.bracketList v)

namespace Bracketing

theorem le_length (h : Bracketing edges incident n dfs T k s) : edges.length ≤ s.edges.length :=
  h.extends_edges.length_le

theorem lt_brackets (h : Bracketing edges incident n dfs T k s)
    (hT : IsSearchTree edges incident n dfs T) {v : Nat} (hv : T.Mem v) : v < s.brackets.length := by
  rw [h.bracketed.brackets_length]
  exact hT.lt_of_mem hv

theorem edge_eq (h : Bracketing edges incident n dfs T k s) {i : Nat} (hi : i < edges.length) :
    edges[i]? = some (s.edgeAt i) := by
  obtain ⟨caps, hcaps⟩ := h.extends_edges
  have hi' : i < s.edges.length := hi.trans_le h.le_length
  rw [BracketState.edgeAt, List.getD_eq_getElem?_getD, ← hcaps, List.getElem?_append_left hi,
    List.getElem?_eq_getElem hi]
  rfl

/-- Different numbers stand for different brackets. -/
theorem item_inj (h : Bracketing edges incident n dfs T k s) {x y : Nat} (hx : x < s.edges.length)
    (hy : y < s.edges.length) (heq : s.item edges.length x = s.item edges.length y) : x = y := by
  rw [BracketState.item, BracketState.item] at heq
  split at heq
  · split at heq
    · exact Item.edge.inj heq
    · cases heq
  · split at heq
    · cases heq
    · rename_i hcap hcap'
      exact h.cap_inj x y (Nat.le_of_not_lt hcap) hx (Nat.le_of_not_lt hcap') hy (Item.cap.inj heq)

/-- A back edge leads up from its lower end. -/
theorem backUp_iff (h : Bracketing edges incident n dfs T k s)
    (hT : IsSearchTree edges incident n dfs T) (hloop : Loopless edges) (hnode : T.Mem node)
    {i : Nat} (hi : i < edges.length) (hmem : i ∈ incident.getD node []) :
    s.backUp dfs node i = true ↔ T.IsBack i ∧ T.low i = node := by
  have hedge := h.edge_eq hi
  obtain ⟨edge, hedge', hends⟩ := (hT.files node i).1 hmem
  obtain rfl := Option.some.inj (hedge.symm.trans hedge')
  have hup := hloop.number_up_lt (T := T) (show (edgeGraph edges).IsEdge i from hi)
  have hanc := anc_up_low (T := T) (show (edgeGraph edges).IsEdge i from hi)
  rw [BracketState.backUp, Bool.and_eq_true, Bool.not_eq_true', h.tree_eq i hi, Bool.eq_false_iff,
    ne_eq, hT.tree_iff]
  rcases hloop.ends (T := T) hedge hends with ⟨rfl, hother⟩ | ⟨rfl, hother⟩
  · rw [hother, hT.descends_iff hanc.left_mem hnode]
    constructor
    · rintro ⟨htree, -⟩
      exact ⟨⟨hi, htree⟩, rfl⟩
    · rintro ⟨hback, -⟩
      exact ⟨hback.not_tree, (hloop.up_ne_low hedge).symm, hanc⟩
  · rw [hother, hT.descends_iff hanc.right_mem hnode]
    refine iff_of_false ?_ ?_
    · rintro ⟨-, -, hanc'⟩
      exact Nat.not_le_of_lt hup hanc'.le
    · rintro ⟨-, heq⟩
      exact hloop.up_ne_low hedge heq.symm

/-- A back edge comes from below its upper end. -/
theorem backBelow_iff (h : Bracketing edges incident n dfs T k s)
    (hT : IsSearchTree edges incident n dfs T) (hloop : Loopless edges) (hnode : T.Mem node)
    {i : Nat} (hi : i < edges.length) (hmem : i ∈ incident.getD node []) :
    s.backBelow dfs node i = true ↔ T.IsBack i ∧ T.up i = node := by
  have hedge := h.edge_eq hi
  obtain ⟨edge, hedge', hends⟩ := (hT.files node i).1 hmem
  obtain rfl := Option.some.inj (hedge.symm.trans hedge')
  have hup := hloop.number_up_lt (T := T) (show (edgeGraph edges).IsEdge i from hi)
  have hanc := anc_up_low (T := T) (show (edgeGraph edges).IsEdge i from hi)
  rw [BracketState.backBelow, Bool.and_eq_true, Bool.not_eq_true', h.tree_eq i hi,
    Bool.eq_false_iff, ne_eq, hT.tree_iff]
  rcases hloop.ends (T := T) hedge hends with ⟨rfl, hother⟩ | ⟨rfl, hother⟩
  · rw [hother, hT.descends_iff hnode hanc.left_mem]
    refine iff_of_false ?_ ?_
    · rintro ⟨-, -, hanc'⟩
      exact Nat.not_le_of_lt hup hanc'.le
    · rintro ⟨-, heq⟩
      exact hloop.up_ne_low hedge heq
  · rw [hother, hT.descends_iff hnode hanc.right_mem]
    constructor
    · rintro ⟨htree, -⟩
      exact ⟨⟨hi, htree⟩, rfl⟩
    · rintro ⟨hback, -⟩
      exact ⟨hback.not_tree, (hloop.up_ne_low hedge).symm, hanc⟩

/-- The row of a back edge's end holds it. -/
theorem mem_incident (hT : IsSearchTree edges incident n dfs T) {i v : Nat} (hi : i < edges.length)
    (hv : T.low i = v ∨ T.up i = v) : i ∈ incident.getD v [] := by
  obtain ⟨edge, hedge⟩ := exists_edge (show (edgeGraph edges).IsEdge i from hi)
  exact (hT.files v i).2 ⟨edge, hedge, ends_of_low_up hedge hv⟩

/-- A cap at a node comes from a node processed before. -/
theorem not_backUp_cap (h : Bracketing edges incident n dfs T (k + 1) s)
    (hT : IsSearchTree edges incident n dfs T) (hnode : T.Mem node) (hk : T.number node = k)
    {x : Nat} (hx : x ∈ s.incident.getD node []) (hcap : edges.length ≤ x) :
    s.backUp dfs node x = false := by
  have hfrom := h.capFrom x hcap (h.bracketed.incident_lt node x hx)
  obtain ⟨j, c, d, hc, -⟩ := hfrom.hasCap.twice
  have hne : (s.edgeAt x).fromNode ≠ node := by
    intro heq
    have hle := hfrom.le
    rw [heq, hk] at hle
    exact Nat.not_succ_le_self k hle
  rw [Bool.eq_false_iff, BracketState.backUp, ne_eq, Bool.and_eq_true, not_and]
  intro _
  rw [other, if_neg hne, hT.descends_iff hc.anc.left_mem hnode]
  rintro ⟨-, hanc⟩
  exact Nat.not_succ_le_self k (hfrom.le.trans (hanc.le.trans hk.le))

end Bracketing

end Sese
end Jstd
