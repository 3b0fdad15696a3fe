import Jstd.Sese.BracketInvariant

/-!
# One turn of the loop

The heights of a node decide whether it has a cap, the brackets that survive the collection are the
ones that end above it, and the row it leaves is its bracket list.
-/

namespace Jstd
namespace Sese

open Foundation DepthFirstTree

variable {E : Type} {edges : List (IEdge E)} {incident : List (List Nat)} {n k node : Nat}
  {dfs : VisitState} {T : DepthFirstTree (edgeGraph edges)} {s t : BracketState E}

namespace BracketState

/-- The state in which a node knows its brackets but not yet its cap. -/
structure Gathered (dfs : VisitState) (node : Nat) (s t : BracketState E) : Prop where
  edges_eq : t.edges = s.edges
  incident_eq : t.incident = s.incident
  tree_eq : t.tree = s.tree
  hi_eq : t.hi = (s.hiSet dfs node).hi
  capping_eq : t.capping = s.capping
  recentSize_eq : t.recentSize = s.recentSize
  recentClass_eq : t.recentClass = s.recentClass
  length_eq : t.brackets.length = s.brackets.length
  row_node : t.row node = ((s.row node ++ (dfs.childrenOf node).flatMap s.row).filter fun x =>
      !(decide (x ∈ s.capping) && s.capBelow dfs node x) &&
        !(decide (x ∈ s.incident.getD node []) && s.backBelow dfs node x)) ++
    (s.incident.getD node []).filter (s.backUp dfs node)
  row_child : ∀ c ∈ dfs.childrenOf node, t.row c = []
  row_other : ∀ v, v ≠ node → v ∉ dfs.childrenOf node → t.row v = s.row v

theorem Gathered.edgeAt_eq (h : Gathered dfs node s t) (x : Nat) : t.edgeAt x = s.edgeAt x := by
  rw [edgeAt, edgeAt, h.edges_eq]

/-- Ending back edges renews no pair that is remembered for a bracket. -/
theorem recent_foldl_backEnded (dfs : VisitState) (node : Nat) (is : List Nat)
    (s : BracketState E) :
    (is.foldl (backEnded dfs node) s).recentSize = s.recentSize ∧
      (is.foldl (backEnded dfs node) s).recentClass = s.recentClass := by
  induction is generalizing s with
  | nil => exact ⟨rfl, rfl⟩
  | cons i is ih =>
      rw [List.foldl_cons, (ih _).1, (ih _).2, backEnded]
      split
      · rw [labelled]
        split
        · exact ⟨rfl, rfl⟩
        · exact ⟨rfl, rfl⟩
      · exact ⟨rfl, rfl⟩

theorem gathered (hnodup : (dfs.childrenOf node).Nodup) (hnode : node ∉ dfs.childrenOf node)
    (hlt : node < s.brackets.length) (hchildren : ∀ c ∈ dfs.childrenOf node, c < s.brackets.length) :
    Gathered dfs node s
      ((s.incident.getD node []).foldl (backBegun dfs node) (s.collected dfs node)) := by
  -- The states after each of the first three loops.
  obtain ⟨t₁, ht₁⟩ : ∃ t, (dfs.childrenOf node).foldl (took node) (s.hiSet dfs node) = t := ⟨_, rfl⟩
  obtain ⟨t₂, ht₂⟩ : ∃ t, t₁.capping.foldl (capDropped dfs node) t₁ = t := ⟨_, rfl⟩
  obtain ⟨t₃, ht₃⟩ : ∃ t, (s.incident.getD node []).foldl (backEnded dfs node) t₂ = t := ⟨_, rfl⟩
  obtain ⟨hrow₁, hchild₁, hother₁, hgraph₁, hlen₁⟩ := foldl_took (s := s.hiSet dfs node) hnodup
    hnode hlt hchildren
  rw [ht₁] at hrow₁ hchild₁ hother₁ hgraph₁ hlen₁
  have hcapping : t₁.capping = s.capping := by
    rw [hgraph₁]
    rfl
  have hlt₁ : node < t₁.brackets.length := by rw [hlen₁]; exact hlt
  obtain ⟨hsame₂, hlabels₂, hrow₂⟩ := foldl_capDropped dfs hlt₁ t₁.capping
  rw [ht₂] at hsame₂ hlabels₂ hrow₂
  have hlt₂ : node < t₂.brackets.length := by rw [hsame₂.length_eq]; exact hlt₁
  obtain ⟨hsame₃, hrow₃⟩ := foldl_backEnded dfs hlt₂ (s.incident.getD node [])
  have hrecent₃ := recent_foldl_backEnded dfs node (s.incident.getD node []) t₂
  rw [ht₃] at hsame₃ hrow₃ hrecent₃
  have hlt₃ : node < t₃.brackets.length := by rw [hsame₃.length_eq]; exact hlt₂
  obtain ⟨hsame₄, hlabels₄, hrow₄⟩ := foldl_backBegun dfs hlt₃ (s.incident.getD node [])
  have hcollected : s.collected dfs node = t₃ := by
    rw [collected, ht₁, ht₂, ht₃]
  rw [hcollected]
  -- The loops move brackets and labels only: their tests are those made in `s`.
  have hsame := (hsame₂.trans hsame₃).trans hsame₄
  have hedges₁ : t₁.edges = s.edges := by rw [hgraph₁]; rfl
  have htree₁ : t₁.tree = s.tree := by rw [hgraph₁]; rfl
  have hcap₁ : ∀ x, t₁.capBelow dfs node x = s.capBelow dfs node x := fun x => by
    rw [capBelow, capBelow, edgeAt, edgeAt, hedges₁]
  have hbelow₂ : ∀ x, t₂.backBelow dfs node x = s.backBelow dfs node x := fun x => by
    rw [hsame₂.backBelow_eq, backBelow, backBelow, edgeAt, edgeAt, hedges₁, htree₁]
  have hup₃ : t₃.backUp dfs node = s.backUp dfs node := by
    funext x
    rw [(hsame₂.trans hsame₃).backUp_eq, backUp, backUp, edgeAt, edgeAt, hedges₁, htree₁]
  constructor
  · rw [hsame.edges_eq, hedges₁]
  · rw [hsame.incident_eq, hgraph₁]
    rfl
  · rw [hsame.tree_eq, htree₁]
  · rw [hsame.hi_eq, hgraph₁]
  · rw [hsame.capping_eq, hcapping]
  · rw [hlabels₄.recentSize_eq, hrecent₃.1, hlabels₂.recentSize_eq, hgraph₁]
    rfl
  · rw [hlabels₄.recentClass_eq, hrecent₃.2, hlabels₂.recentClass_eq, hgraph₁]
    rfl
  · rw [hsame.length_eq, hlen₁]
    rfl
  · rw [hrow₄, hrow₃, hrow₂, hrow₁, hup₃, hcapping, List.filter_filter]
    congr 1
    refine List.filter_congr fun x _ => ?_
    rw [hcap₁, hbelow₂, Bool.and_comm]
  · intro c hc
    have hne : c ≠ node := fun heq => hnode (heq ▸ hc)
    rw [hsame.row_eq c hne]
    exact hchild₁ c hc
  · intro v hv hvc
    rw [hsame.row_eq v hv]
    exact hother₁ v hv hvc

end BracketState

/-! ## Heights -/

namespace Bracketing

theorem child_lt (hT : IsSearchTree edges incident n dfs T) (hk : T.number node = k) {c : Nat}
    (hc : c ∈ dfs.childrenOf node) : k + 1 ≤ T.number c := by
  have := (hT.mem_childrenOf.1 hc).lt
  omega

/-- Setting the height of a node leaves those of its children. -/
theorem hiSet_child (hT : IsSearchTree edges incident n dfs T) {c : Nat}
    (hc : c ∈ dfs.childrenOf node) : (s.hiSet dfs node).hi.getD c ⊤ = s.hi.getD c ⊤ := by
  have hne : node ≠ c := (hT.mem_childrenOf.1 hc).ne
  rw [BracketState.hiSet, getD_set, if_neg fun h => hne h.1]

section

variable (h : Bracketing edges incident n dfs T (k + 1) s)
  (hT : IsSearchTree edges incident n dfs T) (hloop : Loopless edges) (hnode : T.Mem node)
  (hk : T.number node = k)
include h hnode hk

theorem incident_edge_iff {i : Nat} (hi : i < edges.length) :
    i ∈ s.incident.getD node [] ↔ i ∈ incident.getD node [] :=
  h.incident_edge node hnode (by omega) i hi

include hT

include hloop

/-- The back edges that begin at a node. -/
theorem mem_begins {i : Nat} : i ∈ (s.incident.getD node []).filter (s.backUp dfs node) ↔
    T.IsBack i ∧ T.low i = node ∧ T.number (T.up i) < T.number node := by
  rw [List.mem_filter]
  constructor
  · rintro ⟨hmem, hup⟩
    have hi : i < edges.length := by
      by_contra hcap
      rw [h.not_backUp_cap hT hnode hk hmem (Nat.le_of_not_lt hcap)] at hup
      cases hup
    obtain ⟨hback, hlow⟩ := (h.backUp_iff hT hloop hnode hi
      ((h.incident_edge_iff hnode hk hi).1 hmem)).1 hup
    refine ⟨hback, hlow, ?_⟩
    rw [← hlow]
    exact hloop.number_up_lt hi
  · rintro ⟨hback, hlow, -⟩
    have hi : i < edges.length := hback.isEdge
    have hmem : i ∈ incident.getD node [] := mem_incident hT hi (.inl hlow)
    exact ⟨(h.incident_edge_iff hnode hk hi).2 hmem,
      (h.backUp_iff hT hloop hnode hi hmem).2 ⟨hback, hlow⟩⟩

theorem hi0_le {j : Nat} : s.hi0 dfs node ≤ WithTop.some j ↔ T.ReachesHere node j := by
  rw [BracketState.hi0, BracketState.upsOf, minOrMax_le_iff]
  have hup : ∀ i, i ∈ (s.incident.getD node []).filter (s.backUp dfs node) →
      dfs.number.getD (other (s.edgeAt i) node) ⊤ = WithTop.some (T.number (T.up i)) := by
    intro i hi
    obtain ⟨hback, hlow, -⟩ := (h.mem_begins hT hloop hnode hk).1 hi
    have hedge := h.edge_eq (show i < edges.length from hback.isEdge)
    rcases hloop.ends (T := T) hedge (ends_of_low_up hedge (.inl hlow)) with ⟨-, hother⟩ | ⟨hup, -⟩
    · rw [hother, hT.number_eq (anc_up_low hback.isEdge).left_mem]
    · exact absurd (hup.trans hlow.symm) (hloop.up_ne_low hedge)
  constructor
  · rintro ⟨x, hx, hle⟩
    obtain ⟨i, hi, rfl⟩ := List.mem_map.1 hx
    obtain ⟨hback, hlow, -⟩ := (h.mem_begins hT hloop hnode hk).1 hi
    rw [hup i hi, WithTop.coe_le_coe] at hle
    exact ⟨i, hback, hlow, hle⟩
  · rintro ⟨i, hback, hlow, hle⟩
    have hlt : T.number (T.up i) < T.number node := by
      rw [← hlow]
      exact hloop.number_up_lt hback.isEdge
    have hi := (h.mem_begins hT hloop hnode hk).2 ⟨hback, hlow, hlt⟩
    refine ⟨_, List.mem_map.2 ⟨i, hi, rfl⟩, ?_⟩
    rw [hup i hi, WithTop.coe_le_coe]
    exact hle

omit hnode hloop in
theorem child_hi_le {c j : Nat} (hc : c ∈ dfs.childrenOf node) :
    s.hi.getD c ⊤ ≤ WithTop.some j ↔ T.Reaches c j :=
  h.hi_le c (hT.mem_childrenOf.1 hc).mem (child_lt hT hk hc) j

omit hnode hloop in
theorem hi2_le {j : Nat} : s.hi2 dfs node ≤ WithTop.some j ↔ T.ReachesTwice node j := by
  have hmap : (dfs.childrenOf node).map (fun c => (s.hiSet dfs node).hi.getD c ⊤) =
      (dfs.childrenOf node).map fun c => s.hi.getD c ⊤ :=
    List.map_congr_left fun c hc => hiSet_child hT hc
  rw [BracketState.hi2, hmap, BracketState.hi1,
    minOrMax_erase_le_iff (hT.childrenOf_nodup node) fun c => s.hi.getD c ⊤]
  constructor
  · rintro ⟨c, hc, d, hd, hne, hcj, hdj⟩
    exact ⟨c, d, hT.mem_childrenOf.1 hc, hT.mem_childrenOf.1 hd, hne,
      (h.child_hi_le hT hk hc).1 hcj, (h.child_hi_le hT hk hd).1 hdj⟩
  · rintro ⟨c, d, hc, hd, hne, hcj, hdj⟩
    have hc' := hT.mem_childrenOf.2 hc
    have hd' := hT.mem_childrenOf.2 hd
    exact ⟨c, hc', d, hd', hne, (h.child_hi_le hT hk hc').2 hcj,
      (h.child_hi_le hT hk hd').2 hdj⟩

/-- The height of a node is the least that a back edge from below it reaches. -/
theorem hi_node_le {j : Nat} :
    (s.hiSet dfs node).hi.getD node ⊤ ≤ WithTop.some j ↔ T.Reaches node j := by
  have hlt : node < s.hi.length := by
    rw [h.bracketed.hi_length]
    exact hT.lt_of_mem hnode
  rw [BracketState.hiSet, getD_set, if_pos ⟨rfl, hlt⟩, min_le_iff, h.hi0_le hT hloop hnode hk,
    BracketState.hi1, minOrMax_le_iff]
  constructor
  · rintro (⟨i, hback, hlow, hle⟩ | ⟨x, hx, hle⟩)
    · exact ⟨i, hback, by rw [hlow]; exact .refl hnode, hle⟩
    · obtain ⟨c, hc, rfl⟩ := List.mem_map.1 hx
      exact ((h.child_hi_le hT hk hc).1 hle).of_anc (hT.mem_childrenOf.1 hc).anc
  · rintro ⟨i, hback, hanc, hle⟩
    by_cases hlow : node = T.low i
    · exact .inl ⟨i, hback, hlow.symm, hle⟩
    · obtain ⟨c, hc, hci⟩ := hanc.exists_child hlow
      have hc' := hT.mem_childrenOf.2 hc
      exact .inr ⟨_, List.mem_map.2 ⟨c, hc', rfl⟩,
        (h.child_hi_le hT hk hc').2 ⟨i, hback, hci, hle⟩⟩

/-- A cap is added exactly when the node has one, and to the right height. -/
theorem hi2_lt_iff : s.hi2 dfs node < s.hi0 dfs node ↔ T.HasCap node := by
  constructor
  · intro hlt
    obtain ⟨j, hj⟩ := WithTop.ne_top_iff_exists.1 (ne_top_of_lt hlt)
    have htwice := (h.hi2_le hT hk (j := j)).1 hj.ge
    have heq : T.capNumber node = j := by
      refine Nat.le_antisymm (capNumber_le htwice) ?_
      have hle := (h.hi2_le hT hk).2 (capNumber_spec ⟨j, htwice⟩)
      rw [← hj] at hle
      exact WithTop.coe_le_coe.1 hle
    refine ⟨⟨j, htwice⟩, ?_⟩
    rw [heq, ← h.hi0_le hT hloop hnode hk, hj]
    exact not_le_of_gt hlt
  · intro hcap
    have hle := (h.hi2_le hT hk).2 (capNumber_spec hcap.twice)
    have hnot := hcap.not_here
    rw [← h.hi0_le hT hloop hnode hk] at hnot
    exact hle.trans_lt (lt_of_not_ge hnot)

omit hnode hloop in
theorem hi2_eq (hcap : T.HasCap node) : s.hi2 dfs node = WithTop.some (T.capNumber node) := by
  have hle := (h.hi2_le hT hk).2 (capNumber_spec hcap.twice)
  obtain ⟨j, hj⟩ := WithTop.ne_top_iff_exists.1
    (ne_top_of_le_ne_top (WithTop.coe_ne_top (a := T.capNumber node)) hle)
  have htwice := (h.hi2_le hT hk (j := j)).1 hj.ge
  refine le_antisymm hle ?_
  rw [← hj, WithTop.coe_le_coe]
  exact capNumber_le htwice

end

/-! ## The row of the node -/

section

variable (h : Bracketing edges incident n dfs T (k + 1) s)
  (hT : IsSearchTree edges incident n dfs T) (hloop : Loopless edges)
  (hcyclic : (edgeGraph edges).Cyclic) (hnode : T.Mem node) (hk : T.number node = k)
include h hT hnode hk

omit hnode in
theorem row_child {c : Nat} (hc : c ∈ dfs.childrenOf node) :
    T.IsBracketList c ((s.row c).map (s.item edges.length)) := by
  have hchild := hT.mem_childrenOf.1 hc
  refine h.row_list c hchild.mem hchild.ne_root (child_lt hT hk hc) ?_
  rw [hchild.parent_eq]
  omega

include hloop hcyclic

/-- What the loops over caps and back edges leave of a child's row ends above the node. -/
theorem keep_iff {c x : Nat} (hc : c ∈ dfs.childrenOf node) (hx : x ∈ s.row c) :
    (!(decide (x ∈ s.capping) && s.capBelow dfs node x) &&
      !(decide (x ∈ s.incident.getD node []) && s.backBelow dfs node x)) = true ↔
      T.itemUp (s.item edges.length x) < T.number node := by
  have hchild := hT.mem_childrenOf.1 hc
  have hlisted := ((h.row_child hT hk hc).mem _).1 (List.mem_map_of_mem hx)
  by_cases hi : x < edges.length
  · have hitem : s.item edges.length x = .edge x := if_pos hi
    have hnocap : x ∉ s.capping := fun hcap => Nat.not_le_of_lt hi ((h.capping_mem x).1 hcap).1
    rw [hitem] at hlisted ⊢
    have hback : T.IsBack x := hlisted.isItem
    have hle : T.number (T.up x) ≤ T.number node := by
      refine hlisted.isItem.itemUp_le hcyclic hchild hlisted.anc ?_
      rcases hlisted.above with hlt | heq
      · exact hlt
      · cases heq
    show _ ↔ T.number (T.up x) < T.number node
    by_cases hup : T.up x = node
    · have hmem : x ∈ incident.getD node [] := mem_incident hT hi (.inr hup)
      refine iff_of_false ?_ ?_
      · rw [decide_eq_true ((h.incident_edge_iff hnode hk hi).2 hmem),
          (h.backBelow_iff hT hloop hnode hi hmem).2 ⟨hback, hup⟩, Bool.and_self, Bool.not_true,
          Bool.and_false]
        exact Bool.false_ne_true
      · rw [hup]
        exact Nat.lt_irrefl _
    · refine iff_of_true ?_ (Nat.lt_of_le_of_ne hle fun heq => hup ?_)
      · by_cases hmem : x ∈ s.incident.getD node []
        · have hbelow : s.backBelow dfs node x = false := by
            rw [Bool.eq_false_iff, ne_eq, h.backBelow_iff hT hloop hnode hi
              ((h.incident_edge_iff hnode hk hi).1 hmem)]
            exact fun h => hup h.2
          simp [hnocap, hbelow]
        · rw [decide_eq_false hnocap, decide_eq_false hmem]
          rfl
      · exact T.number_inj (anc_up_low hback.isEdge).left_mem hnode heq
  · have hitem : s.item edges.length x = .cap (s.edgeAt x).fromNode := if_neg hi
    have hcap := Nat.le_of_not_lt hi
    have hlen := h.bracketed.brackets_lt c x hx
    have hfrom := h.capFrom x hcap hlen
    have hmem : x ∈ s.capping := (h.capping_mem x).2 ⟨hcap, hlen⟩
    rw [hitem] at hlisted ⊢
    have hanc : T.Anc node (s.edgeAt x).fromNode := hchild.anc.trans hlisted.anc
    show _ ↔ T.capNumber (s.edgeAt x).fromNode < T.number node
    rw [← hfrom.to_number]
    by_cases hlt : T.number (s.edgeAt x).toNode < T.number node
    · refine iff_of_true ?_ hlt
      have hne : (s.edgeAt x).toNode ≠ node := by
        intro heq
        rw [heq] at hlt
        exact Nat.lt_irrefl _ hlt
      have hbelow : s.capBelow dfs node x = false := by
        rw [Bool.eq_false_iff, BracketState.capBelow, if_neg hne, ne_eq,
          hT.descends_iff hnode hfrom.to_mem]
        exact fun h => Nat.not_le_of_lt hlt h.2.le
      have hout : x ∉ s.incident.getD node [] := by
        intro hmem'
        exact hne (h.incident_cap node hnode (by omega) x hmem' hcap)
      rw [hbelow, decide_eq_false hout, Bool.and_false]
      rfl
    · refine iff_of_false ?_ hlt
      -- The cap ends at the node, or it never left the child.
      have hbelow : s.capBelow dfs node x = true := by
        rw [BracketState.capBelow]
        split
        · rw [hT.descends_iff hnode hanc.right_mem]
          refine ⟨?_, hanc⟩
          intro heq
          have := hfrom.le
          rw [heq] at this
          omega
        · rename_i hne
          rw [hT.descends_iff hnode hfrom.to_mem]
          refine ⟨hne, hnode, hfrom.to_mem, Nat.le_of_not_lt hlt, ?_⟩
          rw [hfrom.to_number]
          exact (hfrom.hasCap.capNumber_le_number hcyclic).trans_lt hanc.lt_fin
      rw [decide_eq_true hmem, hbelow]
      exact Bool.false_ne_true

theorem isBracketList_gathered (ht : BracketState.Gathered dfs node s t)
    {caps : List (Item Nat Nat)}
    (hcaps : (T.HasCap node ∧ caps = [.cap node]) ∨ (¬ T.HasCap node ∧ caps = [])) :
    T.IsBracketList node ((t.row node).map (s.item edges.length) ++ caps) := by
  -- What begins here is listed as back edges.
  have hbegins : ((s.incident.getD node []).filter (s.backUp dfs node)).map
      (s.item edges.length) =
        ((s.incident.getD node []).filter (s.backUp dfs node)).map fun i => .edge i := by
    refine List.map_congr_left fun i hi => ?_
    exact if_pos ((h.mem_begins hT hloop hnode hk).1 hi).1.isEdge
  -- Of the children's brackets those are kept that do not end here.
  have hkept : (((dfs.childrenOf node).flatMap s.row).filter fun x =>
      !(decide (x ∈ s.capping) && s.capBelow dfs node x) &&
        !(decide (x ∈ s.incident.getD node []) && s.backBelow dfs node x)).map
          (s.item edges.length) =
      ((dfs.childrenOf node).flatMap fun c => (s.row c).map (s.item edges.length)).filter
        fun y => decide (T.itemUp y < T.number node) := by
    rw [← List.map_flatMap, List.filter_map]
    congr 1
    refine List.filter_congr fun x hx => ?_
    obtain ⟨c, hc, hx⟩ := List.mem_flatMap.1 hx
    rw [Bool.eq_iff_iff, h.keep_iff hT hloop hcyclic hnode hk hc hx]
    exact decide_eq_true_iff.symm
  rw [ht.row_node, h.row_empty node hnode (by omega), List.nil_append, List.map_append, hkept,
    hbegins]
  refine isBracketList_of_children (fun c => hT.mem_childrenOf) (hT.childrenOf_sorted node)
    (fun c hc => h.row_child hT hk hc) (fun c _ x _ => decide_eq_true_iff)
    (fun i => h.mem_begins hT hloop hnode hk) ?_ hcaps hnode
  exact (h.incident_sorted node hnode (by omega)).filter _

/-! ## The step -/

omit h hloop hcyclic hnode in
theorem row_of_gathered (ht : BracketState.Gathered dfs node s t) {v : Nat} (hne : v ≠ node)
    (hparent : v ≠ T.root → k ≤ T.number v → T.number (T.parent v) < k) :
    t.row v = s.row v := by
  refine ht.row_other v hne fun hmem => ?_
  have hchild := hT.mem_childrenOf.1 hmem
  have hlt := hparent hchild.ne_root (Nat.le_of_succ_le (child_lt hT hk hmem))
  rw [hchild.parent_eq] at hlt
  omega

omit hcyclic in
theorem hi_le_of_gathered (ht : BracketState.Gathered dfs node s t) (v : Nat) (hv : T.Mem v)
    (hle : k ≤ T.number v) (j : Nat) :
    t.hi.getD v ⊤ ≤ WithTop.some j ↔ T.Reaches v j := by
  rw [ht.hi_eq]
  by_cases hvn : v = node
  · subst hvn
    exact h.hi_node_le hT hloop hnode hk
  · have hne : T.number v ≠ k := fun heq => hvn (T.number_inj hv hnode (heq.trans hk.symm))
    rw [BracketState.hiSet, getD_set, if_neg fun h => hvn h.1.symm]
    exact h.hi_le v hv (by omega) j

omit h hT hnode hloop hcyclic in
theorem number_ne {v : Nat} (hv : T.Mem v) (hnode : T.Mem node) (hvn : v ≠ node) :
    T.number v ≠ k :=
  fun heq => hvn (T.number_inj hv hnode (heq.trans hk.symm))

omit hloop hcyclic in
/-- What a turn makes of the rows, once the node has its list. -/
theorem rows_of_turn {u : BracketState E} (ht : BracketState.Gathered dfs node s t)
    (hedge : ∀ x < s.edges.length, u.edgeAt x = s.edgeAt x)
    (hrow : ∀ v, v ≠ node → u.row v = t.row v)
    (hlist : T.IsBracketList node ((u.row node).map (u.item edges.length))) :
    (∀ v, T.Mem v → T.number v < k → u.row v = []) ∧
      (∀ v, T.Mem v → v ≠ T.root → k ≤ T.number v → T.number (T.parent v) < k →
        T.IsBracketList v ((u.row v).map (u.item edges.length))) ∧
      ∀ v, T.Mem v → v ≠ T.root → k ≤ T.number v → T.IsBracketList v (T.bracketList v) := by
  refine ⟨?_, ?_, ?_⟩
  · intro v hv hlt
    have hvn : v ≠ node := by
      rintro rfl
      exact Nat.lt_irrefl _ (hk ▸ hlt)
    rw [hrow v hvn, row_of_gathered hT hk ht hvn fun _ hle => absurd hlt (Nat.not_lt_of_le hle)]
    exact h.row_empty v hv (Nat.lt_succ_of_lt hlt)
  · intro v hv hroot hle hparent
    by_cases hvn : v = node
    · rw [hvn]
      exact hlist
    · have hne := number_ne hk hv hnode hvn
      -- The other rows hold what they held, and no item has changed.
      have hmap : (s.row v).map (u.item edges.length) = (s.row v).map (s.item edges.length) :=
        List.map_congr_left fun x hx =>
          BracketState.item_of_edgeAt (hedge x (h.bracketed.brackets_lt v x hx))
      rw [hrow v hvn, row_of_gathered hT hk ht hvn fun _ _ => hparent, hmap]
      exact h.row_list v hv hroot (by omega) (Nat.lt_succ_of_lt hparent)
  · intro v hv hroot hle
    by_cases hvn : v = node
    · rw [hvn, hlist.bracketList_eq]
      exact hlist
    · have hne := number_ne hk hv hnode hvn
      exact h.lists v hv hroot (by omega)

/-- A node without a cap. -/
theorem uncapped (ht : BracketState.Gathered dfs node s t) (hcap : ¬ T.HasCap node)
    (hb : Bracketed dfs n t.edges t) : Bracketing edges incident n dfs T k t := by
  have hedgeAt := ht.edgeAt_eq
  have hlist := h.isBracketList_gathered hT hloop hcyclic hnode hk ht (.inr ⟨hcap, rfl⟩)
  rw [List.append_nil] at hlist
  -- No edge was added, so the rows stand for the same items.
  have hitem : t.item edges.length = s.item edges.length :=
    funext fun x => BracketState.item_of_edgeAt (hedgeAt x)
  rw [← hitem] at hlist
  obtain ⟨hempty, hrows, hlists⟩ := h.rows_of_turn hT hnode hk ht (fun x _ => hedgeAt x)
    (fun _ _ => rfl) hlist
  constructor
  · exact hb
  · rw [ht.edges_eq]
    exact h.extends_edges
  · intro i hi
    rw [ht.tree_eq]
    exact h.tree_eq i hi
  · intro x hx hlt
    rw [ht.edges_eq] at hlt
    exact (h.capFrom x hx hlt).congr (Nat.le_succ k) (hedgeAt x)
  · intro x y hx hx' hy hy' heq
    rw [ht.edges_eq] at hx' hy'
    rw [hedgeAt, hedgeAt] at heq
    exact h.cap_inj x y hx hx' hy hy' heq
  · intro x
    rw [ht.capping_eq, ht.edges_eq]
    exact h.capping_mem x
  · intro v hv hlt i hi
    rw [ht.incident_eq]
    exact h.incident_edge v hv (Nat.lt_succ_of_lt hlt) i hi
  · intro v hv hlt x hx hle
    rw [ht.incident_eq] at hx
    rw [hedgeAt]
    exact h.incident_cap v hv (Nat.lt_succ_of_lt hlt) x hx hle
  · intro v hv hlt
    rw [ht.incident_eq]
    exact h.incident_sorted v hv (Nat.lt_succ_of_lt hlt)
  · exact h.hi_le_of_gathered hT hloop hnode hk ht
  · exact hempty
  · exact hrows
  · exact hlists

omit hT hloop hcyclic hnode hk in
/-- The rows hold no number past the edges. -/
theorem lt_of_mem_gathered (ht : BracketState.Gathered dfs node s t) {x : Nat}
    (hx : x ∈ t.row node) : x < s.edges.length := by
  rw [ht.row_node, List.mem_append, List.mem_filter, List.mem_filter] at hx
  rcases hx with ⟨hx, -⟩ | ⟨hx, -⟩
  · rcases List.mem_append.1 hx with hx | hx
    · exact h.bracketed.brackets_lt node x hx
    · obtain ⟨c, -, hx⟩ := List.mem_flatMap.1 hx
      exact h.bracketed.brackets_lt c x hx
  · exact h.bracketed.incident_lt node x hx

/-- The list of a node ends with its cap. -/
theorem isBracketList_capped (ht : BracketState.Gathered dfs node s t) (hcap : T.HasCap node)
    (a : Nat) : T.IsBracketList node
      (((t.capped dfs node a).row node).map ((t.capped dfs node a).item edges.length)) := by
  have hlist := h.isBracketList_gathered hT hloop hcyclic hnode hk ht (.inl ⟨hcap, rfl⟩)
  have hlt : node < t.brackets.length := by
    rw [ht.length_eq]
    exact h.lt_brackets hT hnode
  have hle : edges.length ≤ t.edges.length := by
    rw [ht.edges_eq]
    exact h.le_length
  have hmap : (t.row node).map ((t.capped dfs node a).item edges.length) =
      (t.row node).map (s.item edges.length) := by
    refine List.map_congr_left fun x hx => BracketState.item_of_edgeAt ?_
    have hx := h.lt_of_mem_gathered ht hx
    rw [BracketState.edgeAt_capped (by rw [ht.edges_eq]; exact hx), ht.edgeAt_eq]
  rw [BracketState.row_capped hlt, if_pos rfl, List.map_append, hmap, List.map_singleton,
    BracketState.item_capped_self hle]
  exact hlist

/-- A node with a cap. -/
theorem capped (ht : BracketState.Gathered dfs node s t) (hcap : T.HasCap node)
    (hb : Bracketed dfs n (t.capped dfs node (T.capNumber node)).edges
      (t.capped dfs node (T.capNumber node))) :
    Bracketing edges incident n dfs T k (t.capped dfs node (T.capNumber node)) := by
  have hlist := h.isBracketList_capped hT hloop hcyclic hnode hk ht hcap (T.capNumber node)
  have hle := h.le_length
  -- The cap leads to an ancestor of the node, or to the node itself.
  obtain ⟨ancestor, hancestor⟩ : ∃ ancestor, dfs.preorder[T.capNumber node]? = some ancestor :=
    ⟨_, List.getElem?_eq_getElem
      ((hcap.capNumber_le_number hcyclic).trans_lt (hT.number_lt hnode))⟩
  obtain ⟨hmem, hnumber⟩ := hT.number_of_preorder hancestor
  have hgetD : dfs.preorder.getD (T.capNumber node) 0 = ancestor := by
    rw [List.getD_eq_getElem?_getD, hancestor]
    rfl
  have hbound : dfs.preorder.getD (T.capNumber node) 0 < t.incident.length := by
    rw [hgetD, ht.incident_eq, h.bracketed.incident_length]
    exact hT.lt_of_mem hmem
  have hold : ∀ x < s.edges.length,
      (t.capped dfs node (T.capNumber node)).edgeAt x = s.edgeAt x := by
    intro x hx
    rw [BracketState.edgeAt_capped (by rw [ht.edges_eq]; exact hx), ht.edgeAt_eq]
  have hnew : (t.capped dfs node (T.capNumber node)).edgeAt t.edges.length =
      ⟨node, dfs.preorder.getD (T.capNumber node) 0, none⟩ :=
    BracketState.edgeAt_capped_self
  have hcases : ∀ {x}, x < (t.capped dfs node (T.capNumber node)).edges.length →
      x < s.edges.length ∨ x = s.edges.length := by
    intro x hx
    rw [← ht.edges_eq]
    exact BracketState.lt_capped hx
  have hincident : ∀ {v}, v ≠ node → (t.capped dfs node (T.capNumber node)).incident.getD v [] =
      if ancestor = v then s.incident.getD v [] ++ [s.edges.length] else s.incident.getD v [] := by
    intro v hv
    rw [BracketState.incident_capped hv hbound, hgetD, ht.incident_eq, ht.edges_eq]
  rw [ht.edges_eq, hgetD] at hnew
  have hlow : ∀ {v}, T.number v < k → v ≠ node := by
    rintro v hlt rfl
    exact Nat.lt_irrefl _ (hk ▸ hlt)
  have hlt : node < t.brackets.length := by
    rw [ht.length_eq]
    exact h.lt_brackets hT hnode
  obtain ⟨hempty, hrows, hlists⟩ := h.rows_of_turn hT hnode hk ht hold
    (fun v hv => (BracketState.row_capped hlt v).trans (if_neg (Ne.symm hv))) hlist
  constructor
  · exact hb
  · rw [BracketState.capped, ht.edges_eq]
    exact h.extends_edges.trans (List.prefix_append _ _)
  · intro i hi
    have hi' : i < t.tree.length := by
      rw [ht.tree_eq, h.bracketed.tree_length]
      exact hi.trans_le hle
    rw [← h.tree_eq i hi, ← ht.tree_eq]
    exact List.getD_append _ _ _ _ hi'
  · intro x hx hlt
    rcases hcases hlt with hlt | rfl
    · exact (h.capFrom x hx hlt).congr (Nat.le_succ k) (hold x hlt)
    · constructor
      · rw [hnew]
        exact hcap
      · rw [hnew]
        exact hk.ge
      · rw [hnew]
        exact hmem
      · rw [hnew]
        exact hnumber
  · intro x y hx hx' hy hy' heq
    -- Only the new cap comes from the node.
    have hother : ∀ {z}, edges.length ≤ z → z < s.edges.length →
        ((t.capped dfs node (T.capNumber node)).edgeAt z).fromNode ≠ node := by
      intro z hz hz' heq
      have hfrom := (h.capFrom z hz hz').le
      rw [← hold z hz', heq] at hfrom
      omega
    rcases hcases hx' with hx' | rfl
    · rcases hcases hy' with hy' | rfl
      · rw [hold x hx', hold y hy'] at heq
        exact h.cap_inj x y hx hx' hy hy' heq
      · rw [hnew] at heq
        exact absurd heq (hother hx hx')
    · rcases hcases hy' with hy' | rfl
      · rw [hnew] at heq
        exact absurd heq.symm (hother hy hy')
      · rfl
  · intro x
    rw [BracketState.capped, List.mem_append, List.mem_singleton, List.length_append,
      List.length_singleton, ht.capping_eq, ht.edges_eq, h.capping_mem]
    omega
  · intro v hv hlt i hi
    rw [hincident (hlow hlt), ← h.incident_edge v hv (Nat.lt_succ_of_lt hlt) i hi]
    split
    · have hi' : i ≠ s.edges.length := Nat.ne_of_lt (hi.trans_le hle)
      rw [List.mem_append, List.mem_singleton]
      exact ⟨fun hmem => hmem.resolve_right hi', .inl⟩
    · exact Iff.rfl
  · intro v hv hlt x hx hcapx
    rw [hincident (hlow hlt)] at hx
    have hold_cap : x ∈ s.incident.getD v [] →
        ((t.capped dfs node (T.capNumber node)).edgeAt x).toNode = v := by
      intro hx
      rw [hold x (h.bracketed.incident_lt v x hx)]
      exact h.incident_cap v hv (Nat.lt_succ_of_lt hlt) x hx hcapx
    split at hx
    · rename_i hva
      rcases List.mem_append.1 hx with hx | hx
      · exact hold_cap hx
      · obtain rfl := List.mem_singleton.1 hx
        rw [hnew]
        exact hva
    · exact hold_cap hx
  · intro v hv hlt
    have hsorted := h.incident_sorted v hv (Nat.lt_succ_of_lt hlt)
    rw [hincident (hlow hlt)]
    split
    · refine List.pairwise_append.2 ⟨hsorted, List.pairwise_singleton _ _, ?_⟩
      intro i hi j hj
      obtain rfl := List.mem_singleton.1 hj
      exact h.bracketed.incident_lt v i hi
    · exact hsorted
  · intro v hv hle j
    exact h.hi_le_of_gathered hT hloop hnode hk ht v hv hle j
  · exact hempty
  · exact hrows
  · exact hlists

omit hloop hcyclic hk in
/-- The state between the collection and the cap. -/
theorem gathered : BracketState.Gathered dfs node s
    ((s.incident.getD node []).foldl (BracketState.backBegun dfs node) (s.collected dfs node)) := by
  refine BracketState.gathered (hT.childrenOf_nodup node) ?_ (h.lt_brackets hT hnode) ?_
  · intro hmem
    exact (hT.mem_childrenOf.1 hmem).ne rfl
  · intro c hc
    exact h.lt_brackets hT (hT.mem_childrenOf.1 hc).mem

/-- One turn of the loop, up to the names. -/
theorem listed {edges' : List (IEdge E)} (hb : Bracketed dfs n edges' (s.listed dfs node)) :
    Bracketing edges incident n dfs T k (s.listed dfs node) := by
  have ht := h.gathered hT hnode
  have hb' : Bracketed dfs n (s.listed dfs node).edges (s.listed dfs node) := by
    rw [hb.edges_eq]
    exact hb
  rw [BracketState.listed] at hb' ⊢
  by_cases hcap : T.HasCap node
  · rw [if_pos ((h.hi2_lt_iff hT hloop hnode hk).2 hcap), h.hi2_eq hT hk hcap] at hb' ⊢
    exact h.capped hT hloop hcyclic hnode hk ht hcap hb'
  · rw [if_neg fun hlt => hcap ((h.hi2_lt_iff hT hloop hnode hk).1 hlt)] at hb' ⊢
    exact h.uncapped hT hloop hcyclic hnode hk ht hcap hb'

end

/-- The names are kept apart from the rows. -/
theorem named (h : Bracketing edges incident n dfs T k s) (parentEid top size : Nat) :
    Bracketing edges incident n dfs T k (s.named parentEid top size) := by
  obtain ⟨classes, recentSize, recentClass, nextClass, heq⟩ :
      ∃ classes recentSize recentClass nextClass, s.named parentEid top size =
        { s with
          classes := classes
          recentSize := recentSize
          recentClass := recentClass
          nextClass := nextClass } := by
    simp only [BracketState.named, BracketState.renewed]
    split
    · split
      · exact ⟨_, _, _, _, rfl⟩
      · exact ⟨_, _, _, _, rfl⟩
    · split
      · exact ⟨_, _, _, _, rfl⟩
      · exact ⟨_, _, _, _, rfl⟩
  have hb := h.bracketed.named parentEid top size
  rw [heq] at hb ⊢
  exact
    { h with
      bracketed := hb
      capFrom := fun x hx hlt => (h.capFrom x hx hlt).congr (Nat.le_refl k) rfl }

end Bracketing

end Sese
end Jstd
