import Jstd.Sese.BracketTurn

/-!
# The names of the bracket lists

Two edges that have a class have one class exactly when they have one key.  The pair remembered for
a bracket is that of the last node named after it.  On the way up a list loses brackets as long as
its last one stays, so a size that differs from the remembered one is new.
-/

namespace Jstd
namespace Sese

open Foundation DepthFirstTree

variable {E : Type} {edges : List (IEdge E)} {incident : List (List Nat)} {n k d e node : Nat}
  {dfs : VisitState} {T : DepthFirstTree (edgeGraph edges)} {s t : BracketState E}

/-- The class of an edge, or zero. -/
def BracketState.label (self : BracketState E) (i : Nat) : Nat :=
  self.classes.getD i 0

/-- The tree edges named before the node numbered `d - 1` is processed. -/
structure Named (T : DepthFirstTree (edgeGraph edges)) (d v : Nat) : Prop where
  mem : T.Mem v
  ne_root : v ≠ T.root
  le : d ≤ T.number v

theorem Named.mono {d' v : Nat} (h : Named T d v) (hle : d' ≤ d) : Named T d' v :=
  ⟨h.mem, h.ne_root, hle.trans h.le⟩

/-- `v` is the last node named after `x`. -/
structure Remembered (T : DepthFirstTree (edgeGraph edges)) (d : Nat) (s : BracketState E)
    (x v : Nat) : Prop where
  named : Named T d v
  key_eq : T.vertexKey v = (some (s.item edges.length x), s.recentSize.getD x 0)
  label_eq : s.recentClass.getD x 0 = s.label (T.treeEdge v)
  least : ∀ w, Named T d w → (T.vertexKey w).1 = some (s.item edges.length x) →
    T.number v ≤ T.number w

/-- The labels, once the nodes from `d` on are named and the back edges that lead up to numbers
below `e` are not closed. -/
structure Labelling (T : DepthFirstTree (edgeGraph edges)) (d e : Nat) (s : BracketState E) :
    Prop where
  le_length : edges.length ≤ s.classes.length
  label_lt : ∀ i < edges.length, s.label i < s.nextClass
  label_eq_iff : ∀ i < edges.length, ∀ j < edges.length, s.label i ≠ 0 → s.label j ≠ 0 →
    (s.label i = s.label j ↔ T.key i = T.key j)
  tree_iff : ∀ v, T.Mem v → v ≠ T.root → (s.label (T.treeEdge v) ≠ 0 ↔ d ≤ T.number v)
  back_of_key : ∀ v, Named T d v → ∀ i < edges.length, T.vertexKey v = (some (.edge i), 1) →
    s.label i ≠ 0
  back_cases : ∀ i, T.IsBack i → s.label i ≠ 0 →
    e ≤ T.number (T.up i) ∨ ∃ v, Named T d v ∧ T.vertexKey v = (some (.edge i), 1)
  remembered : ∀ x < s.edges.length, s.recentSize.getD x 0 ≠ 0 → ∃ v, Remembered T d s x v
  forgotten : ∀ x < s.edges.length, s.recentSize.getD x 0 = 0 → ∀ v, Named T d v →
    (T.vertexKey v).1 ≠ some (s.item edges.length x)

/-- The back edges that lead up to a node from `e` on have classes. -/
def Ended (T : DepthFirstTree (edgeGraph edges)) (e : Nat) (s : BracketState E) : Prop :=
  ∀ i, T.IsBack i → e ≤ T.number (T.up i) → s.label i ≠ 0

/-- The last node named after `x` stays the last one. -/
theorem Remembered.congr {d' x v : Nat} (h : Remembered T d s x v) (hnamed : Named T d' v)
    (hleast : ∀ w, Named T d' w → (T.vertexKey w).1 = some (s.item edges.length x) → Named T d w)
    (hitem : t.item edges.length x = s.item edges.length x)
    (hsize : t.recentSize.getD x 0 = s.recentSize.getD x 0)
    (hclass : t.recentClass.getD x 0 = s.recentClass.getD x 0)
    (hlabel : t.label (T.treeEdge v) = s.label (T.treeEdge v)) : Remembered T d' t x v := by
  refine ⟨hnamed, ?_, ?_, ?_⟩
  · rw [hitem, hsize]
    exact h.key_eq
  · rw [hclass, hlabel]
    exact h.label_eq
  · intro w hw hwx
    rw [hitem] at hwx
    exact h.least w (hleast w hw hwx) hwx

namespace Labelling

theorem congr (h : Labelling T d e s) (hedges : t.edges = s.edges)
    (hlabels : BracketState.SameLabels s t) : Labelling T d e t := by
  have hlabel : ∀ i, t.label i = s.label i := fun i => by
    rw [BracketState.label, BracketState.label, hlabels.classes_eq]
  have hitem : ∀ x, t.item edges.length x = s.item edges.length x := fun x => by
    rw [BracketState.item, BracketState.item, BracketState.edgeAt, BracketState.edgeAt, hedges]
  constructor
  · rw [hlabels.classes_eq]
    exact h.le_length
  · intro i hi
    rw [hlabel, hlabels.nextClass_eq]
    exact h.label_lt i hi
  · intro i hi j hj
    rw [hlabel, hlabel]
    exact h.label_eq_iff i hi j hj
  · intro v hv hroot
    rw [hlabel]
    exact h.tree_iff v hv hroot
  · intro v hv i hi hkey
    rw [hlabel]
    exact h.back_of_key v hv i hi hkey
  · intro i hi
    rw [hlabel]
    exact h.back_cases i hi
  · intro x hx hsize
    rw [hedges] at hx
    rw [hlabels.recentSize_eq] at hsize
    obtain ⟨v, hv⟩ := h.remembered x hx hsize
    exact ⟨v, hv.congr hv.named (fun _ hw _ => hw) (hitem x) (by rw [hlabels.recentSize_eq])
      (by rw [hlabels.recentClass_eq]) (hlabel _)⟩
  · intro x hx hsize
    rw [hedges] at hx
    rw [hlabels.recentSize_eq] at hsize
    rw [hitem]
    exact h.forgotten x hx hsize

/-- Nodes above which back edges are not yet closed. -/
theorem mono {e' : Nat} (h : Labelling T d e s) (hle : e' ≤ e) : Labelling T d e' s :=
  { h with
    back_cases := fun i hi hlabel => (h.back_cases i hi hlabel).imp_left hle.trans }

/-- At the root nothing is named. -/
theorem of_root (h : Labelling T (k + 1) e s) (hk : T.number T.root = k) : Labelling T k e s := by
  have hne : ∀ {v}, T.Mem v → v ≠ T.root → T.number v ≠ k := by
    intro v hv hroot heq
    exact hroot (T.number_inj hv T.root_mem (heq.trans hk.symm))
  -- The root has no tree edge, so nothing more is named.
  have hnamed : ∀ {v}, Named T k v ↔ Named T (k + 1) v := by
    intro v
    constructor
    · intro hv
      have hlt := hne hv.mem hv.ne_root
      have hle := hv.le
      exact ⟨hv.mem, hv.ne_root, by omega⟩
    · exact fun hv => hv.mono (Nat.le_succ k)
  constructor
  · exact h.le_length
  · exact h.label_lt
  · exact h.label_eq_iff
  · intro v hv hroot
    rw [h.tree_iff v hv hroot]
    have := hne hv hroot
    omega
  · exact fun v hv => h.back_of_key v (hnamed.1 hv)
  · intro i hi hlabel
    rcases h.back_cases i hi hlabel with hle | ⟨v, hv, hkey⟩
    · exact .inl hle
    · exact .inr ⟨v, hnamed.2 hv, hkey⟩
  · intro x hx hsize
    obtain ⟨v, hv⟩ := h.remembered x hx hsize
    exact ⟨v, hv.congr (hnamed.2 hv.named) (fun w hw _ => hnamed.1 hw) rfl rfl rfl rfl⟩
  · exact fun x hx hsize v hv => h.forgotten x hx hsize v (hnamed.1 hv)

/-! ## Closing back edges -/

theorem label_labelled (h : Labelling T d e s) (x : Nat) {i : Nat} (hi : i < edges.length) :
    (s.labelled x).label i = if x = i ∧ s.label x = 0 then s.nextClass else s.label i := by
  rw [BracketState.labelled]
  by_cases hx : s.classes.getD x 0 = 0
  · rw [if_pos hx, BracketState.label, getD_set]
    by_cases hxi : x = i
    · have hlt : x < s.classes.length := by
        rw [hxi]
        exact hi.trans_le h.le_length
      rw [if_pos ⟨hxi, hlt⟩, if_pos ⟨hxi, hx⟩]
    · rw [if_neg fun h => hxi h.1, if_neg fun h => hxi h.1]
      rfl
  · rw [if_neg hx, if_neg fun h => hx h.2]

theorem label_labelled_ne (h : Labelling T d e s) (x : Nat) {i : Nat} (hi : i < edges.length)
    (hne : s.label i ≠ 0) : (s.labelled x).label i ≠ 0 := by
  rw [h.label_labelled x hi]
  split
  · rename_i hx
    rw [← hx.1, hx.2] at hne
    exact absurd rfl hne
  · exact hne

theorem label_labelled_self (h : Labelling T d e s) {x : Nat} (hx : x < edges.length) :
    (s.labelled x).label x ≠ 0 := by
  rw [h.label_labelled x hx]
  split
  · exact Nat.ne_of_gt (Nat.zero_lt_of_lt (h.label_lt x hx))
  · rename_i hne
    exact fun heq => hne ⟨rfl, heq⟩

/-- A back edge without a class has a key that no edge with a class has. -/
theorem labelled (h : Labelling T d e s) {x : Nat}
    (hx : x < edges.length → T.IsBack x ∧ e ≤ T.number (T.up x)) :
    Labelling T d e (s.labelled x) := by
  by_cases hzero : s.label x = 0
  · have heq : s.labelled x =
        { s with classes := s.classes.set x s.nextClass, nextClass := s.nextClass + 1 } :=
      if_pos hzero
    have hlabel : ∀ i < edges.length, (s.labelled x).label i =
        if x = i then s.nextClass else s.label i := by
      intro i hi
      rw [h.label_labelled x hi]
      simp only [hzero, and_true]
    -- The edge is no tree edge: the labels of those stay.
    have hold : ∀ i, T.IsTree i → (s.labelled x).label i = s.label i := by
      rintro i ⟨v, hv, hroot, rfl⟩
      rw [hlabel _ (T.treeEdge_isEdge hv hroot)]
      refine if_neg ?_
      rintro rfl
      exact (hx (T.treeEdge_isEdge hv hroot)).1.not_tree (isTree_treeEdge hv hroot)
    -- A back edge shares its key with no edge labelled so far, so the new class is right.
    have hfresh : ∀ j < edges.length, s.label j ≠ 0 → x < edges.length → T.key x ≠ T.key j := by
      intro j hj hlabelled hlt hkey
      obtain ⟨hback, -⟩ := hx hlt
      rw [key_back hback] at hkey
      by_cases hj' : T.IsTree j
      · obtain ⟨v, hv, hroot, rfl⟩ := hj'
        rw [key_treeEdge hv hroot] at hkey
        exact h.back_of_key v ⟨hv, hroot, (h.tree_iff v hv hroot).1 hlabelled⟩ x hlt hkey.symm hzero
      · rw [key_back ⟨hj, hj'⟩, Prod.mk.injEq, Option.some.injEq, Item.edge.injEq] at hkey
        rw [← hkey.1] at hlabelled
        exact hlabelled hzero
    constructor
    · rw [heq, List.length_set]
      exact h.le_length
    · intro i hi
      have hlt := h.label_lt i hi
      rw [hlabel i hi, heq]
      split
      · exact Nat.lt_succ_self _
      · exact Nat.lt_succ_of_lt hlt
    · intro i hi j hj
      have hilt := h.label_lt i hi
      have hjlt := h.label_lt j hj
      rw [hlabel i hi, hlabel j hj]
      by_cases hxi : x = i
      · subst hxi
        rw [if_pos rfl]
        by_cases hxj : x = j
        · subst hxj
          rw [if_pos rfl]
          exact fun _ _ => iff_of_true rfl rfl
        · rw [if_neg hxj]
          exact fun _ hne => iff_of_false (Nat.ne_of_gt hjlt) (hfresh j hj hne hi)
      · rw [if_neg hxi]
        by_cases hxj : x = j
        · subst hxj
          rw [if_pos rfl]
          exact fun hne _ => iff_of_false (Nat.ne_of_lt hilt) (hfresh i hi hne hj).symm
        · rw [if_neg hxj]
          exact h.label_eq_iff i hi j hj
    · intro v hv hroot
      rw [hold _ (isTree_treeEdge hv hroot)]
      exact h.tree_iff v hv hroot
    · intro v hv i hi hkey
      exact h.label_labelled_ne x hi (h.back_of_key v hv i hi hkey)
    · intro i hi hlabelled
      rw [hlabel i hi.isEdge] at hlabelled
      split at hlabelled
      · rename_i hxi
        subst hxi
        exact .inl (hx hi.isEdge).2
      · exact h.back_cases i hi hlabelled
    · intro y hy hsize
      rw [heq] at hy hsize
      obtain ⟨v, hv⟩ := h.remembered y hy hsize
      refine ⟨v, hv.congr hv.named (fun _ hw _ => hw) ?_ ?_ ?_ ?_⟩
      · rw [heq]
        rfl
      · rw [heq]
      · rw [heq]
      · exact hold _ (isTree_treeEdge hv.named.mem hv.named.ne_root)
    · intro y hy hsize
      rw [heq] at hy hsize ⊢
      exact h.forgotten y hy hsize
  · -- An edge that has a class keeps it.
    rw [show s.labelled x = s from if_neg hzero]
    exact h

/-- The loop over the back edges that end at a node. -/
theorem foldl_backEnded (is : List Nat)
    (his : ∀ x ∈ is, s.backBelow dfs node x = true → x < edges.length →
      T.IsBack x ∧ e ≤ T.number (T.up x)) :
    ∀ t, BracketState.SameGraph node s t → Labelling T d e t →
      Labelling T d e (is.foldl (BracketState.backEnded dfs node) t) ∧
        (∀ i < edges.length, t.label i ≠ 0 →
          (is.foldl (BracketState.backEnded dfs node) t).label i ≠ 0) ∧
        ∀ x ∈ is, x < edges.length → s.backBelow dfs node x = true →
          (is.foldl (BracketState.backEnded dfs node) t).label x ≠ 0 := by
  induction is with
  | nil =>
      intro t _ ht
      exact ⟨ht, fun i _ hne => hne, fun x hx => by cases hx⟩
  | cons x is ih =>
      intro t hsame ht
      have ih' := ih fun y hy => his y (List.mem_cons_of_mem x hy)
      rw [List.foldl_cons, BracketState.backEnded, hsame.backBelow_eq]
      -- The edge is labelled when its bracket ends, and no later turn takes a label back.
      by_cases hbelow : s.backBelow dfs node x = true
      · rw [if_pos hbelow]
        have hdropped : Labelling T d e (t.dropped node x) :=
          ht.congr rfl (BracketState.sameLabels_setRow t node _)
        have hsame' : BracketState.SameGraph node s ((t.dropped node x).labelled x) :=
          (hsame.trans (BracketState.sameGraph_setRow t node _)).trans
            (BracketState.sameGraph_labelled _ x)
        obtain ⟨hfold, hkeep, hclosed⟩ := ih' _ hsame'
          (hdropped.labelled (his x List.mem_cons_self hbelow))
        refine ⟨hfold, ?_, ?_⟩
        · intro i hi hne
          exact hkeep i hi (hdropped.label_labelled_ne x hi hne)
        · intro y hy hlt hy'
          rcases List.mem_cons.1 hy with rfl | hy
          · exact hkeep y hlt (hdropped.label_labelled_self hlt)
          · exact hclosed y hy hlt hy'
      · rw [if_neg hbelow]
        obtain ⟨hfold, hkeep, hclosed⟩ := ih' t hsame ht
        refine ⟨hfold, hkeep, ?_⟩
        intro y hy hlt hy'
        rcases List.mem_cons.1 hy with rfl | hy
        · exact absurd hy' hbelow
        · exact hclosed y hy hlt hy'

/-! ## A cap -/

theorem label_capped {a : Nat} (hlt : edges.length ≤ s.classes.length) {i : Nat}
    (hi : i < edges.length) : (s.capped dfs node a).label i = s.label i :=
  List.getD_append _ _ _ _ (hi.trans_le hlt)

/-- A cap is not yet the last bracket of a node. -/
theorem capped {a : Nat} (h : Labelling T d e s) (hsizes : s.recentSize.length = s.edges.length)
    (hclasses : s.recentClass.length = s.edges.length) (hle : edges.length ≤ s.edges.length)
    (hlists : ∀ v, Named T d v → T.IsBracketList v (T.bracketList v)) (hnode : T.number node < d) :
    Labelling T d e (s.capped dfs node a) := by
  -- The capping bracket comes after every edge of the graph: what was there reads as before.
  have hlabel : ∀ i < edges.length, (s.capped dfs node a).label i = s.label i :=
    fun i hi => label_capped h.le_length hi
  have hsize : ∀ x < s.edges.length,
      (s.capped dfs node a).recentSize.getD x 0 = s.recentSize.getD x 0 :=
    fun x hx => List.getD_append _ _ _ _ (by rw [hsizes]; exact hx)
  have hclass : ∀ x < s.edges.length,
      (s.capped dfs node a).recentClass.getD x 0 = s.recentClass.getD x 0 :=
    fun x hx => List.getD_append _ _ _ _ (by rw [hclasses]; exact hx)
  have hitem : ∀ x < s.edges.length,
      (s.capped dfs node a).item edges.length x = s.item edges.length x :=
    fun x hx => BracketState.item_of_edgeAt (BracketState.edgeAt_capped hx)
  constructor
  · rw [BracketState.capped, List.length_append]
    exact Nat.le_add_right_of_le h.le_length
  · intro i hi
    rw [hlabel i hi]
    exact h.label_lt i hi
  · intro i hi j hj
    rw [hlabel i hi, hlabel j hj]
    exact h.label_eq_iff i hi j hj
  · intro v hv hroot
    rw [hlabel _ (T.treeEdge_isEdge hv hroot)]
    exact h.tree_iff v hv hroot
  · intro v hv i hi hkey
    rw [hlabel i hi]
    exact h.back_of_key v hv i hi hkey
  · intro i hi
    rw [hlabel i hi.isEdge]
    exact h.back_cases i hi
  · intro x hx hne
    rcases BracketState.lt_capped hx with hx | rfl
    · rw [hsize x hx] at hne
      obtain ⟨v, hv⟩ := h.remembered x hx hne
      exact ⟨v, hv.congr hv.named (fun _ hw _ => hw) (hitem x hx) (hsize x hx) (hclass x hx)
        (hlabel _ (T.treeEdge_isEdge hv.named.mem hv.named.ne_root))⟩
    · rw [BracketState.capped, List.getD_append_right _ _ _ _ hsizes.le, hsizes,
        Nat.sub_self] at hne
      exact absurd rfl hne
  · intro x hx hzero v hv hkey
    rcases BracketState.lt_capped hx with hx | rfl
    · rw [hsize x hx] at hzero
      rw [hitem x hx] at hkey
      exact h.forgotten x hx hzero v hv hkey
    · -- What is named so far is not above `node`.
      rw [BracketState.item_capped_self hle] at hkey
      have hanc : T.Anc v node := (((hlists v hv).mem _).1 (List.mem_of_getLast? hkey)).anc
      exact Nat.not_le_of_lt (hnode.trans_le hv.le) hanc.le

end Labelling

end Sese
end Jstd
