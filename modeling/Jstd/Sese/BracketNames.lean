import Jstd.Sese.BracketLabels

/-!
# Naming a tree edge

The class a tree edge is named with is the one of the edges that have the key of its node, or it is
new.
-/

namespace Jstd
namespace Sese

open Foundation DepthFirstTree

variable {E : Type} {edges : List (IEdge E)} {incident : List (List Nat)} {n k node top : Nat}
  {dfs : VisitState} {T : DepthFirstTree (edgeGraph edges)} {s : BracketState E}

/-- A node about to be named after `top`. -/
structure Naming (incident : List (List Nat)) (n : Nat) (dfs : VisitState)
    (T : DepthFirstTree (edgeGraph edges)) (k node top : Nat) (s : BracketState E) : Prop where
  bracketing : Bracketing edges incident n dfs T k s
  labelling : Labelling T (k + 1) k s
  mem : T.Mem node
  ne_root : node ≠ T.root
  number_eq : T.number node = k
  last : (s.row node).getLast? = some top

namespace Naming

theorem number_ne (h : Naming incident n dfs T k node top s) {v : Nat} (hv : Named T k v)
    (hne : v ≠ node) : Named T (k + 1) v := by
  have hk := Bracketing.number_ne h.number_eq hv.mem h.mem hne
  have hle := hv.le
  exact ⟨hv.mem, hv.ne_root, by omega⟩

theorem top_lt (h : Naming incident n dfs T k node top s) : top < s.edges.length :=
  h.bracketing.bracketed.brackets_lt node top (List.mem_of_getLast? h.last)

theorem named_node (h : Naming incident n dfs T k node top s) : Named T k node :=
  ⟨h.mem, h.ne_root, h.number_eq.ge⟩

theorem isBracketList (h : Naming incident n dfs T k node top s) :
    T.IsBracketList node ((s.row node).map (s.item edges.length)) := by
  refine h.bracketing.row_list node h.mem h.ne_root h.number_eq.ge ?_
  rw [← h.number_eq]
  exact T.parent_lt h.mem h.ne_root

theorem lists (h : Naming incident n dfs T k node top s) {v : Nat} (hv : Named T k v) :
    T.IsBracketList v (T.bracketList v) :=
  h.bracketing.lists v hv.mem hv.ne_root hv.le

theorem vertexKey_eq (h : Naming incident n dfs T k node top s) :
    T.vertexKey node = (some (s.item edges.length top), (s.row node).length) := by
  rw [vertexKey, h.isBracketList.bracketList_eq, List.getLast?_map, h.last, List.length_map]
  rfl

theorem size_ne_zero (h : Naming incident n dfs T k node top s) : (s.row node).length ≠ 0 := by
  intro hzero
  have hlast := h.last
  rw [List.length_eq_zero_iff.1 hzero] at hlast
  cases hlast

/-- A bracket that stands for an edge is that edge. -/
theorem top_eq_of_item {i : Nat} (hitem : s.item edges.length top = .edge i) : top = i := by
  rw [BracketState.item] at hitem
  split at hitem
  · exact Item.edge.inj hitem
  · cases hitem

/-- A single bracket is a back edge. -/
theorem isBack_of_single (h : Naming incident n dfs T k node top s)
    (hcyclic : (edgeGraph edges).Cyclic) (hone : (s.row node).length = 1) :
    top < edges.length ∧ T.IsBack top ∧ s.item edges.length top = .edge top := by
  obtain ⟨x, hx⟩ := List.length_eq_one_iff.1 hone
  have hlast := h.last
  rw [hx] at hlast
  obtain rfl : x = top := Option.some.inj hlast
  obtain ⟨i, hi⟩ := h.isBracketList.exists_edge hcyclic h.mem h.ne_root
  have hlisted := (h.isBracketList.mem _).1 hi
  rw [hx, List.map_singleton, List.mem_singleton] at hi
  have hback : T.IsBack i := hlisted.isItem
  obtain rfl := top_eq_of_item hi.symm
  exact ⟨hback.isEdge, hback, hi.symm⟩

/-- A node named before with the key of this one: its size is the one remembered. -/
theorem size_eq (h : Naming incident n dfs T k node top s) {v : Nat} (hv : Named T (k + 1) v)
    (hkey : T.vertexKey v = T.vertexKey node) :
    s.recentSize.getD top 0 = (s.row node).length := by
  have hmono : ∀ {v}, Named T (k + 1) v → Named T k v := fun hv => hv.mono (Nat.le_succ k)
  rw [h.vertexKey_eq] at hkey
  have hne : s.recentSize.getD top 0 ≠ 0 := by
    intro hzero
    exact h.labelling.forgotten top h.top_lt hzero v hv (by rw [hkey])
  obtain ⟨u, hu, hukey, -, hleast⟩ := h.labelling.remembered top h.top_lt hne
  have hle := h.number_eq.le.trans (hmono hu).le
  refine Nat.le_antisymm ?_ ?_
  · have := vertexKey_snd_le (h.lists (hmono hu)) (h.lists (hmono hv)) (hleast v hv (by rw [hkey]))
      (by rw [hukey]) (by rw [hkey])
    rw [hukey, hkey] at this
    exact this
  · have := vertexKey_snd_le (h.lists h.named_node) (h.lists (hmono hu)) hle
      (by rw [h.vertexKey_eq]) (by rw [hukey])
    rw [h.vertexKey_eq, hukey] at this
    exact this

/-- An edge that has the key of the node has a class only if the size is the one remembered. -/
theorem size_eq_of_key (h : Naming incident n dfs T k node top s) {j : Nat}
    (hj : j < edges.length) (hlabel : s.label j ≠ 0) (hkey : T.key j = T.vertexKey node) :
    s.recentSize.getD top 0 = (s.row node).length := by
  by_cases hj' : T.IsTree j
  · obtain ⟨v, hv, hroot, rfl⟩ := hj'
    rw [key_treeEdge hv hroot] at hkey
    exact h.size_eq ⟨hv, hroot, (h.labelling.tree_iff v hv hroot).1 hlabel⟩ hkey
  · have hback : T.IsBack j := ⟨hj, hj'⟩
    rw [key_back hback] at hkey
    rcases h.labelling.back_cases j hback hlabel with hle | ⟨v, hv, hvkey⟩
    · -- A bracket of the node ends above it.
      have hlast := congrArg Prod.fst hkey.symm
      have hlisted := ((h.lists h.named_node).mem _).1 (List.mem_of_getLast? hlast)
      rcases hlisted.above with hlt | heq
      · rw [h.number_eq] at hlt
        exact absurd hle (Nat.not_le_of_lt hlt)
      · cases heq
    · exact h.size_eq hv (hvkey.trans hkey)

/-- What `renewed` leaves for `top`. -/
structure Renewal (T : DepthFirstTree (edgeGraph edges)) (node top size : Nat)
    (s u : BracketState E) (c : Nat) : Prop where
  edges_eq : u.edges = s.edges
  classes_eq : u.classes = s.classes
  nextClass_le : s.nextClass ≤ u.nextClass
  size_eq : u.recentSize.getD top 0 = size
  class_eq : u.recentClass.getD top 0 = c
  size_other : ∀ x, x ≠ top → u.recentSize.getD x 0 = s.recentSize.getD x 0
  class_other : ∀ x, x ≠ top → u.recentClass.getD x 0 = s.recentClass.getD x 0
  ne_zero : c ≠ 0
  lt : c < u.nextClass
  eq_iff : ∀ j < edges.length, s.label j ≠ 0 → (s.label j = c ↔ T.key j = T.vertexKey node)

theorem renewal (h : Naming incident n dfs T k node top s) :
    ∃ c, Renewal T node top (s.row node).length s (s.renewed top (s.row node).length) c := by
  by_cases hsize : s.recentSize.getD top 0 = (s.row node).length
  · have heq : s.renewed top (s.row node).length = s := if_neg (not_not.2 hsize)
    -- The size was remembered for a tree edge whose key is the one of this list.
    obtain ⟨v, hv, hkey, hclass, -⟩ := h.labelling.remembered top h.top_lt
      (hsize ▸ h.size_ne_zero)
    have hedge : T.treeEdge v < edges.length := T.treeEdge_isEdge hv.mem hv.ne_root
    have hne := (h.labelling.tree_iff v hv.mem hv.ne_root).2 hv.le
    refine ⟨s.recentClass.getD top 0, ?_⟩
    rw [heq]
    constructor
    · rfl
    · rfl
    · exact Nat.le_refl _
    · exact hsize
    · rfl
    · exact fun x _ => rfl
    · exact fun x _ => rfl
    · rw [hclass]
      exact hne
    · rw [hclass]
      exact h.labelling.label_lt _ hedge
    · intro j hj hlabel
      rw [hclass, h.labelling.label_eq_iff j hj _ hedge hlabel hne, key_treeEdge hv.mem hv.ne_root,
        hkey, h.vertexKey_eq, hsize]
  · have heq : s.renewed top (s.row node).length =
        { s with
          recentSize := s.recentSize.set top (s.row node).length
          recentClass := s.recentClass.set top s.nextClass
          nextClass := s.nextClass + 1 } := if_pos hsize
    -- The class is new: no labelled edge has this key, or the size would have been remembered.
    have hb := h.bracketing.bracketed
    have hset : ∀ (xs : List Nat) (y x : Nat), x ≠ top → (xs.set top y).getD x 0 = xs.getD x 0 := by
      intro xs y x hx
      rw [getD_set, if_neg fun h => hx h.1.symm]
    refine ⟨s.nextClass, ?_⟩
    rw [heq]
    constructor
    · rfl
    · rfl
    · exact Nat.le_succ _
    · rw [getD_set, if_pos ⟨rfl, by rw [hb.recentSize_length]; exact h.top_lt⟩]
    · rw [getD_set, if_pos ⟨rfl, by rw [hb.recentClass_length]; exact h.top_lt⟩]
    · exact hset _ _
    · exact hset _ _
    · have hedge : T.treeEdge node < edges.length := T.treeEdge_isEdge h.mem h.ne_root
      exact Nat.ne_of_gt (Nat.zero_lt_of_lt (h.labelling.label_lt _ hedge))
    · exact Nat.lt_succ_self _
    · intro j hj hlabel
      refine iff_of_false (Nat.ne_of_lt (h.labelling.label_lt j hj)) ?_
      exact fun hkey => hsize (h.size_eq_of_key hj hlabel hkey)

/-- The edges that are given the class. -/
def Given (T : DepthFirstTree (edgeGraph edges)) (node top : Nat) (s : BracketState E) (i : Nat) :
    Prop :=
  i = T.treeEdge node ∨ ((s.row node).length = 1 ∧ i = top)

theorem Given.key_eq (h : Naming incident n dfs T k node top s)
    (hcyclic : (edgeGraph edges).Cyclic) {i : Nat} (hi : Given T node top s i) :
    T.key i = T.vertexKey node := by
  rcases hi with rfl | ⟨hone, rfl⟩
  · exact key_treeEdge h.mem h.ne_root
  · obtain ⟨-, hback, hitem⟩ := h.isBack_of_single hcyclic hone
    rw [key_back hback, h.vertexKey_eq, hone, hitem]

theorem given_treeEdge_iff (h : Naming incident n dfs T k node top s)
    (hcyclic : (edgeGraph edges).Cyclic) {v : Nat} (hv : T.Mem v) (hroot : v ≠ T.root) :
    Given T node top s (T.treeEdge v) ↔ v = node := by
  constructor
  · rintro (heq | ⟨hone, heq⟩)
    · exact T.treeEdge_inj hv hroot h.mem h.ne_root heq
    · obtain ⟨-, hback, -⟩ := h.isBack_of_single hcyclic hone
      rw [← heq] at hback
      exact absurd (isTree_treeEdge hv hroot) hback.not_tree
  · rintro rfl
    exact .inl rfl

section

variable {c : Nat} {u : BracketState E}

theorem named_graph (s : BracketState E) (parentEid top size : Nat) :
    (s.named parentEid top size).edges = (s.renewed top size).edges ∧
      (s.named parentEid top size).nextClass = (s.renewed top size).nextClass ∧
      (s.named parentEid top size).recentSize = (s.renewed top size).recentSize ∧
      (s.named parentEid top size).recentClass = (s.renewed top size).recentClass := by
  simp only [BracketState.named]
  split
  · exact ⟨rfl, rfl, rfl, rfl⟩
  · exact ⟨rfl, rfl, rfl, rfl⟩

theorem label_named (h : Naming incident n dfs T k node top s)
    (hcyclic : (edgeGraph edges).Cyclic)
    (hu : Renewal T node top (s.row node).length s (s.renewed top (s.row node).length) c) (i : Nat) :
    (Given T node top s i → (s.named (T.treeEdge node) top (s.row node).length).label i = c) ∧
      (¬ Given T node top s i →
        (s.named (T.treeEdge node) top (s.row node).length).label i = s.label i) := by
  obtain ⟨u, heq⟩ : ∃ u, s.renewed top (s.row node).length = u := ⟨_, rfl⟩
  rw [heq] at hu
  have hlt : ∀ {i}, i < edges.length → i < u.classes.length := by
    intro i hi
    rw [hu.classes_eq]
    exact hi.trans_le h.labelling.le_length
  have hedge : T.treeEdge node < edges.length := T.treeEdge_isEdge h.mem h.ne_root
  have hparent : (u.classes.set (T.treeEdge node) c).getD (T.treeEdge node) 0 = c := by
    rw [getD_set, if_pos ⟨rfl, hlt hedge⟩]
  simp only [BracketState.named, heq, BracketState.setClass, hu.class_eq, hu.size_eq, hparent]
  -- With one bracket on the list the bracket gets the class as well.
  by_cases hone : (s.row node).length = 1
  · have htop := (h.isBack_of_single hcyclic hone).1
    rw [if_pos hone]
    simp only [BracketState.label, getD_set, List.length_set, hu.classes_eq]
    rw [hu.classes_eq] at hlt
    constructor
    · rintro (rfl | ⟨-, rfl⟩)
      · by_cases htop' : top = T.treeEdge node
        · rw [if_pos ⟨htop', hlt htop⟩]
        · rw [if_neg fun h => htop' h.1, if_pos ⟨rfl, hlt hedge⟩]
      · rw [if_pos ⟨rfl, hlt htop⟩]
    · intro hnot
      rw [if_neg fun h => hnot (.inr ⟨hone, h.1.symm⟩), if_neg fun h => hnot (.inl h.1.symm)]
  · rw [if_neg hone]
    simp only [BracketState.label, getD_set, hu.classes_eq]
    rw [hu.classes_eq] at hlt
    constructor
    · rintro (rfl | ⟨hone', -⟩)
      · rw [if_pos ⟨rfl, hlt hedge⟩]
      · exact absurd hone' hone
    · intro hnot
      rw [if_neg fun h => hnot (.inl h.1.symm)]

theorem label_named_ne (h : Naming incident n dfs T k node top s)
    (hcyclic : (edgeGraph edges).Cyclic) {i : Nat} (hne : s.label i ≠ 0) :
    (s.named (T.treeEdge node) top (s.row node).length).label i ≠ 0 := by
  obtain ⟨c, hu⟩ := h.renewal
  by_cases hgiven : Given T node top s i
  · rw [(h.label_named hcyclic hu i).1 hgiven]
    exact hu.ne_zero
  · rw [(h.label_named hcyclic hu i).2 hgiven]
    exact hne

theorem named (h : Naming incident n dfs T k node top s) (hcyclic : (edgeGraph edges).Cyclic) :
    Labelling T k k (s.named (T.treeEdge node) top (s.row node).length) := by
  obtain ⟨c, hu⟩ := h.renewal
  have hlabel := h.label_named hcyclic hu
  obtain ⟨hedges, hnext, hsizes, hclasses⟩ :=
    named_graph s (T.treeEdge node) top (s.row node).length
  have hb := h.bracketing.bracketed.named (T.treeEdge node) top (s.row node).length
  obtain ⟨u, heq⟩ : ∃ u, s.renewed top (s.row node).length = u := ⟨_, rfl⟩
  obtain ⟨t, ht⟩ : ∃ t, s.named (T.treeEdge node) top (s.row node).length = t := ⟨_, rfl⟩
  rw [heq] at hu hedges hnext hsizes hclasses
  rw [ht] at hlabel hedges hnext hsizes hclasses hb ⊢
  have hitem : ∀ x, t.item edges.length x = s.item edges.length x := fun x => by
    rw [BracketState.item, BracketState.item, BracketState.edgeAt, BracketState.edgeAt, hedges,
      hu.edges_eq]
  have hmono : ∀ {v}, Named T (k + 1) v → Named T k v := fun hv => hv.mono (Nat.le_succ k)
  have hother : ∀ {v}, Named T (k + 1) v → v ≠ node := by
    rintro v hv rfl
    exact Nat.not_le_of_lt (Nat.lt_succ_self _) (hv.le.trans h.number_eq.le)
  have htree : ∀ {v}, T.Mem v → v ≠ T.root → v ≠ node →
      t.label (T.treeEdge v) = s.label (T.treeEdge v) := by
    intro v hv hroot hne
    exact (hlabel _).2 fun hgiven => hne ((h.given_treeEdge_iff hcyclic hv hroot).1 hgiven)
  -- An edge with a class has the class of the node exactly when it has its key.
  have hnode_iff : ∀ i < edges.length, t.label i ≠ 0 →
      (t.label i = c ↔ T.key i = T.vertexKey node) := by
    intro i hi hne
    by_cases hgiven : Given T node top s i
    · exact iff_of_true ((hlabel i).1 hgiven) (hgiven.key_eq h hcyclic)
    · rw [(hlabel i).2 hgiven] at hne ⊢
      exact hu.eq_iff i hi hne
  constructor
  · rw [hb.classes_length]
    exact h.bracketing.le_length
  · intro i hi
    rw [hnext]
    by_cases hgiven : Given T node top s i
    · rw [(hlabel i).1 hgiven]
      exact hu.lt
    · rw [(hlabel i).2 hgiven]
      exact (h.labelling.label_lt i hi).trans_le hu.nextClass_le
  · intro i hi j hj hine hjne
    by_cases higiven : Given T node top s i
    · rw [(hlabel i).1 higiven, higiven.key_eq h hcyclic, eq_comm, hnode_iff j hj hjne]
      exact eq_comm
    · by_cases hjgiven : Given T node top s j
      · rw [(hlabel j).1 hjgiven, hjgiven.key_eq h hcyclic]
        exact hnode_iff i hi hine
      · rw [(hlabel i).2 higiven] at hine ⊢
        rw [(hlabel j).2 hjgiven] at hjne ⊢
        exact h.labelling.label_eq_iff i hi j hj hine hjne
  · intro v hv hroot
    by_cases hvn : v = node
    · subst hvn
      rw [(hlabel _).1 (.inl rfl)]
      exact iff_of_true hu.ne_zero h.number_eq.ge
    · have hne := Bracketing.number_ne h.number_eq hv h.mem hvn
      rw [htree hv hroot hvn, h.labelling.tree_iff v hv hroot]
      omega
  · intro v hv i hi hkey
    by_cases hvn : v = node
    · subst hvn
      rw [h.vertexKey_eq, Prod.mk.injEq, Option.some.injEq] at hkey
      rw [(hlabel i).1 (.inr ⟨hkey.2, (top_eq_of_item hkey.1).symm⟩)]
      exact hu.ne_zero
    · rw [← ht]
      exact h.label_named_ne hcyclic (h.labelling.back_of_key v (h.number_ne hv hvn) i hi hkey)
  · intro i hi hne
    by_cases hgiven : Given T node top s i
    · refine .inr ⟨node, h.named_node, ?_⟩
      rw [← hgiven.key_eq h hcyclic, key_back hi]
    · rw [(hlabel i).2 hgiven] at hne
      rcases h.labelling.back_cases i hi hne with hle | ⟨v, hv, hkey⟩
      · exact .inl hle
      · exact .inr ⟨v, hmono hv, hkey⟩
  · intro x hx hne
    rw [hedges, hu.edges_eq] at hx
    rw [hsizes] at hne
    by_cases hxt : x = top
    · subst hxt
      refine ⟨node, h.named_node, ?_, ?_, ?_⟩
      · rw [hitem, hsizes, hu.size_eq]
        exact h.vertexKey_eq
      · rw [hclasses, hu.class_eq, (hlabel _).1 (.inl rfl)]
      · intro w hw _
        exact h.number_eq.le.trans hw.le
    · rw [hu.size_other x hxt] at hne
      obtain ⟨v, hv⟩ := h.labelling.remembered x hx hne
      refine ⟨v, hv.congr (hmono hv.named) ?_ (hitem x) ?_ ?_ ?_⟩
      · intro w hw hwx
        refine h.number_ne hw ?_
        rintro rfl
        rw [h.vertexKey_eq] at hwx
        exact hxt (h.bracketing.item_inj hx h.top_lt (Option.some.inj hwx).symm)
      · rw [hsizes, hu.size_other x hxt]
      · rw [hclasses, hu.class_other x hxt]
      · exact htree hv.named.mem hv.named.ne_root (hother hv.named)
  · intro x hx hzero v hv hvx
    rw [hedges, hu.edges_eq] at hx
    rw [hsizes] at hzero
    rw [hitem] at hvx
    have hxt : x ≠ top := by
      rintro rfl
      rw [hu.size_eq] at hzero
      exact h.size_ne_zero hzero
    rw [hu.size_other x hxt] at hzero
    refine h.labelling.forgotten x hx hzero v (h.number_ne hv ?_) hvx
    rintro rfl
    rw [h.vertexKey_eq] at hvx
    exact hxt (h.bracketing.item_inj hx h.top_lt (Option.some.inj hvx).symm)

end

end Naming

end Sese
end Jstd
