import Jstd.Dominator.Numbering
import Jstd.Foundation.Semidominator

/-!
# The graph on depth-first numbers

After `dfs` every reachable node has a number, and the algorithm no longer looks at nodes.
`Complete` is what it knows then; `Complete.depthFirst` says that the numbers form a preorder
numbering of the graph they inherit, and `Complete.isIdom_iff` that immediate dominators are the
same in both graphs.
-/

namespace Jstd
namespace Dominator

open Foundation LtState

variable {N : Type} [DecidableEq N] {g : Cfg N} {nodeSet : Finset N} {root : N}

/-- The edges of the graph, between numbers. -/
def indexEdge (g : Cfg N) (s : LtState N) (i j : Nat) : Prop :=
  ∃ u v, s.vertex[i]? = some (some u) ∧ s.vertex[j]? = some (some v) ∧ g.Edge u v

/-- The search from `root` is over: the node set is numbered, and every edge is recorded. -/
structure Complete (g : Cfg N) (nodeSet : Finset N) (root : N) (s : LtState N) : Prop where
  numbered : Numbered g nodeSet s
  root_number : s.vertex[1]? = some (some root)
  all_numbered : ∀ v ∈ nodeSet, ∃ j, s.number.get? v = some j
  finished : ∀ x, 1 ≤ x → x < s.vertex.length → Finished g nodeSet s x
  preds : ∀ {v : N} {j : Nat}, s.number.get? v = some j → ∀ i, 1 ≤ i → i < s.vertex.length →
    (s.predOf j).count i = edgeCount g s i v

/-- `dfs` from the root, on the nodes reachable from it, is complete. -/
theorem dfs_complete (hset : ∀ v, v ∈ nodeSet ↔ g.Reachable root v) (fuel : Nat)
    (hfuel : nodeSet.card ≤ fuel) :
    ∃ s, (dfs g nodeSet fuel root 0).run LtState.new = (.ok (), s) ∧
      Complete g nodeSet root s := by
  have hnew := new_numbered g nodeSet
  have hcard : (unnumbered nodeSet (LtState.new : LtState N)).card ≤ fuel :=
    Nat.le_trans (Finset.card_le_card (Finset.filter_subset _ _)) hfuel
  obtain ⟨s, hrun, hexp, hfin, hvertex, -⟩ :=
    dfs_spec fuel (p := 0) hnew rfl ((hset root).2 .refl) (.inl rfl) hcard
  -- The search has returned from every vertex it numbered, its root included.
  have hall : ∀ x, 1 ≤ x → x < s.vertex.length → Finished g nodeSet s x := by
    intro x hx hlt
    rcases Nat.lt_or_eq_of_le hx with h | rfl
    · exact hexp.finished x h hlt
    · exact hfin
  have hroot : s.vertex[1]? = some (some root) := hvertex
  refine ⟨s, hrun, hexp.numbered, hroot, ?_, hall, ?_⟩
  -- Along a walk from the root, each node is numbered when the one before it is left.
  · intro v hv
    have hwalk := (hset v).1 hv
    induction hwalk with
    | refl => exact ⟨1, (hexp.numbered.number_iff root 1).2 hroot⟩
    | tail hprev hstep ih =>
        obtain ⟨i, hi⟩ := ih ((hset _).2 hprev)
        have hlt := hexp.numbered.number_lt hi
        obtain ⟨j, hj, -⟩ := hall i hlt.1 hlt.2 _ ((hexp.numbered.number_iff _ _).1 hi) _ hstep hv
        exact ⟨j, hj⟩
  · intro v j hj i hi hlt
    rcases Nat.lt_or_eq_of_le hi with h | rfl
    · exact hexp.preds_new hj i h hlt
    · rw [edgeCount, hroot]
      exact hexp.preds_self hj

namespace Complete

variable {s : LtState N} (hs : Complete g nodeSet root s)

include hs

theorem vertex_pos {i : Nat} {v : N} (h : s.vertex[i]? = some (some v)) :
    1 ≤ i ∧ i < s.vertex.length :=
  hs.numbered.number_lt ((hs.numbered.number_iff v i).2 h)

theorem vertex_inj {i j : Nat} {v : N} (hi : s.vertex[i]? = some (some v))
    (hj : s.vertex[j]? = some (some v)) : i = j := by
  have h := (hs.numbered.number_iff v i).2 hi
  rw [(hs.numbered.number_iff v j).2 hj] at h
  exact (Option.some.inj h).symm

theorem two_le_length : 2 ≤ s.vertex.length :=
  (hs.vertex_pos hs.root_number).2

/-- There are no more numbers than nodes. -/
theorem length_le_card : s.vertex.length ≤ nodeSet.card + 1 := by
  have hcard := Finset.card_le_card_of_surjOn (s := nodeSet)
    (t := Finset.Ico 1 s.vertex.length) (fun v => (s.number.get? v).getD 0) (by
      intro i hi
      obtain ⟨hi1, hi⟩ := Finset.mem_Ico.1 hi
      obtain ⟨v, hv⟩ := hs.numbered.vertex_some hi1 hi
      have hnum := (hs.numbered.number_iff v i).2 hv
      exact ⟨v, hs.numbered.mem_set hnum, by simp [hnum]⟩)
  rw [Nat.card_Ico] at hcard
  omega

/-- The numbers are a preorder numbering of the graph they inherit. -/
theorem depthFirst : DepthFirst (indexEdge g s) s.parentOf (s.vertex.length - 1) where
  bounds := by
    rintro i j ⟨u, v, hu, hv, -⟩
    have hi := hs.vertex_pos hu
    have hj := hs.vertex_pos hv
    omega
  parent_edge := by
    intro w hw hwn
    obtain ⟨v, hv⟩ := hs.numbered.vertex_some (i := w) (by omega) (by omega)
    obtain ⟨u, hu, huv⟩ := hs.numbered.parent_edge hw hv
    exact ⟨u, v, hu, hv, huv⟩
  parent_lt := by
    intro w hw hwn
    exact hs.numbered.parent_lt hw (by omega)
  parent_prev := by
    intro w hw hwn
    exact hs.numbered.parent_prev hw (by omega)
  forward := by
    rintro i j ⟨u, v, hu, hv, huv⟩ hlt
    have hi := hs.vertex_pos hu
    have hnum := (hs.numbered.number_iff v j).2 hv
    obtain ⟨j', hj', hanc⟩ := hs.finished i hi.1 hi.2 u hu v huv (hs.numbered.mem_set hnum)
    rw [hnum, Option.some.injEq] at hj'
    subst hj'
    exact hanc hlt

/-- The recorded predecessors are the predecessors. -/
theorem mem_predOf {i j : Nat} (hj : 1 ≤ j) (hjn : j < s.vertex.length) :
    i ∈ s.predOf j ↔ indexEdge g s i j := by
  obtain ⟨v, hv⟩ := hs.numbered.vertex_some hj hjn
  have hcount := hs.preds ((hs.numbered.number_iff v j).2 hv) i
  constructor
  · intro hmem
    have hi := hs.numbered.pred_bounds hmem
    obtain ⟨u, hu⟩ := hs.numbered.vertex_some hi.1 hi.2
    have hpos := List.count_pos_iff.2 hmem
    rw [hcount hi.1 hi.2, edgeCount, hu, List.count_pos_iff] at hpos
    exact ⟨u, v, hu, hv, hpos⟩
  · rintro ⟨u, v', hu, hv', huv⟩
    rw [hv] at hv'
    obtain rfl : v = v' := by simpa using hv'
    have hi := hs.vertex_pos hu
    rw [← List.count_pos_iff, hcount hi.1 hi.2, edgeCount, hu, List.count_pos_iff]
    exact huv

/-! ## Walks in both graphs -/

theorem exists_number (hset : ∀ v, v ∈ nodeSet ↔ g.Reachable root v) {v : N}
    (hv : g.Reachable root v) : ∃ i : Nat, s.vertex[i]? = some (some v) := by
  obtain ⟨i, hi⟩ := hs.all_numbered v ((hset v).2 hv)
  exact ⟨i, (hs.numbered.number_iff v i).1 hi⟩

theorem reachable (hset : ∀ v, v ∈ nodeSet ↔ g.Reachable root v) {v : N} {i : Nat}
    (hv : s.vertex[i]? = some (some v)) : g.Reachable root v :=
  (hset v).1 (hs.numbered.mem_set ((hs.numbered.number_iff v i).2 hv))

theorem walk_of_indexWalk {i : Nat} {d : N} (hd : s.vertex[i]? = some (some d)) {j : Nat}
    (h : Relation.ReflTransGen (fun x y => indexEdge g s x y ∧ y ≠ i) 1 j) {v : N}
    (hv : s.vertex[j]? = some (some v)) :
    Relation.ReflTransGen (fun x y => g.Edge x y ∧ y ≠ d) root v := by
  induction h generalizing v with
  | refl =>
      rw [hs.root_number] at hv
      obtain rfl : root = v := by simpa using hv
      exact .refl
  | tail _ hstep ih =>
      obtain ⟨⟨x, y, hx, hy, hxy⟩, hne⟩ := hstep
      rw [hv] at hy
      obtain rfl : v = y := by simpa using hy
      refine .tail (ih hx) ⟨hxy, ?_⟩
      rintro rfl
      exact hne (hs.vertex_inj hv hd)

theorem indexWalk_of_walk (hset : ∀ v, v ∈ nodeSet ↔ g.Reachable root v) {i : Nat} {d : N}
    (hd : s.vertex[i]? = some (some d)) {v : N}
    (h : Relation.ReflTransGen (fun x y => g.Edge x y ∧ y ≠ d) root v) :
    ∃ j : Nat, s.vertex[j]? = some (some v) ∧
      Relation.ReflTransGen (fun x y => indexEdge g s x y ∧ y ≠ i) 1 j := by
  induction h with
  | refl => exact ⟨1, hs.root_number, .refl⟩
  | @tail x y _ hstep ih =>
      obtain ⟨hxy, hne⟩ := hstep
      obtain ⟨a, ha, hwalk⟩ := ih
      obtain ⟨b, hb⟩ := hs.exists_number hset ((hs.reachable hset ha).tail hxy)
      refine ⟨b, hb, .tail hwalk ⟨⟨x, y, ha, hb, hxy⟩, ?_⟩⟩
      rintro rfl
      rw [hd] at hb
      obtain rfl : d = y := by simpa using hb
      exact hne rfl

/-- Dominance is the same between nodes and between their numbers. -/
theorem dominates_iff_index (hset : ∀ v, v ∈ nodeSet ↔ g.Reachable root v) {i j : Nat} {d v : N}
    (hd : s.vertex[i]? = some (some d)) (hv : s.vertex[j]? = some (some v)) :
    Dominates (indexEdge g s) 1 i j ↔ Dominates g.Edge root d v := by
  have hroot : 1 ≠ i ↔ root ≠ d := by
    constructor
    · rintro hne rfl
      exact hne (hs.vertex_inj hs.root_number hd)
    · rintro hne rfl
      rw [hs.root_number] at hd
      exact hne (by simpa using hd)
  rw [dominates_iff, dominates_iff, hroot]
  constructor
  · rintro h ⟨hne, hwalk⟩
    obtain ⟨j', hj', hwalk'⟩ := hs.indexWalk_of_walk hset hd hwalk
    obtain rfl := hs.vertex_inj hv hj'
    exact h ⟨hne, hwalk'⟩
  · rintro h ⟨hne, hwalk⟩
    exact h ⟨hne, hs.walk_of_indexWalk hd hwalk hv⟩

/-- So are immediate dominators. -/
theorem isIdom_iff_index (hset : ∀ v, v ∈ nodeSet ↔ g.Reachable root v) {i j : Nat} {d v : N}
    (hd : s.vertex[i]? = some (some d)) (hv : s.vertex[j]? = some (some v)) :
    IsIdom (indexEdge g s) 1 i j ↔ IsIdom g.Edge root d v := by
  constructor
  · intro h
    refine ⟨?_, (hs.dominates_iff_index hset hd hv).1 h.dominates, ?_⟩
    · rintro rfl
      exact h.ne (hs.vertex_inj hd hv)
    -- A node that dominates `v` is on a walk to `v`, so it has a number.
    · intro c hne hc
      obtain ⟨l, hl⟩ := exists_path_of_reaches (hs.reachable hset hv)
      obtain ⟨l', hl', -⟩ := hl.exists_prefix (hc l hl)
      obtain ⟨k, hk⟩ := hs.exists_number hset hl'.reaches
      refine (hs.dominates_iff_index hset hk hd).1 (h.last k ?_ ?_)
      · rintro rfl
        rw [hv] at hk
        exact hne (by simpa using hk.symm)
      · exact (hs.dominates_iff_index hset hk hv).2 hc
  · intro h
    refine ⟨?_, (hs.dominates_iff_index hset hd hv).2 h.dominates, ?_⟩
    · rintro rfl
      rw [hv] at hd
      exact h.ne (by simpa using hd.symm)
    -- A vertex that dominates `j` is an ancestor of `j`, so it has a node.
    · intro c hne hc
      have hpos := hs.vertex_pos hv
      have hanc := hs.depthFirst.anc_of_dominates hc hpos.1 (by omega)
      have hle := hs.depthFirst.anc_le hanc (by omega)
      have hone := hs.depthFirst.one_le_of_anc hanc hpos.1 (by omega)
      obtain ⟨u, hu⟩ := hs.numbered.vertex_some hone (by omega)
      refine (hs.dominates_iff_index hset hu hd).2 (h.last u ?_ ?_)
      · rintro rfl
        exact hne (hs.vertex_inj hu hv)
      · exact (hs.dominates_iff_index hset hu hv).1 hc

end Complete

/-! ## The numbering as a whole -/

/-- A depth-first numbering of the nodes reachable from `root`, with complete predecessor lists. -/
structure DfsNumbering (g : Cfg N) (root : N) (s : LtState N) : Prop where
  parent_length : s.parent.length = s.lastIndex + 1
  pred_length : s.pred.length = s.lastIndex + 1
  reachable_iff : ∀ v, g.Reachable root v ↔ ∃ i, s.number.get? v = some i
  bounds : ∀ {v : N} {i : Nat}, s.number.get? v = some i → 1 ≤ i ∧ i ≤ s.lastIndex
  once : ∀ i, 1 ≤ i → i ≤ s.lastIndex → ∃! v, s.number.get? v = some i
  root_number : s.number.get? root = some 1
  root_anc : ∀ w, 1 ≤ w → w ≤ s.lastIndex → Anc s.parentOf 1 w
  /-- A vertex is numbered before those below it, and these without a gap. -/
  preorder : ∀ u w, w ≤ s.lastIndex → Anc s.parentOf u w →
    u ≤ w ∧ ∀ x, u ≤ x → x ≤ w → Anc s.parentOf u x
  parent : ∀ {v : N} {w : Nat}, s.number.get? v = some w → 2 ≤ w →
    s.parentOf w < w ∧ ∃ u, s.number.get? u = some (s.parentOf w) ∧ g.Edge u v
  pred_number : ∀ {i j : Nat}, i ∈ s.predOf j → ∃ u, s.number.get? u = some i
  pred_count : ∀ {u v : N} {i j : Nat}, s.number.get? u = some i → s.number.get? v = some j →
    (s.predOf j).count i = (g.successors u).count v
  /-- No edge leads forward across the tree. -/
  forward : ∀ {u v : N} {i j : Nat}, g.Edge u v → s.number.get? u = some i →
    s.number.get? v = some j → i < j → Anc s.parentOf i j

theorem Complete.dfsNumbering {s : LtState N} (hs : Complete g nodeSet root s)
    (hset : ∀ v, v ∈ nodeSet ↔ g.Reachable root v) : DfsNumbering g root s := by
  have hn := hs.numbered
  have D := hs.depthFirst
  have htwo := hs.two_le_length
  have hlast : s.lastIndex + 1 = s.vertex.length := by
    rw [lastIndex]
    omega
  have hnumber : ∀ {i}, 1 ≤ i → i ≤ s.lastIndex → ∃ v, s.number.get? v = some i := by
    intro i hi hle
    obtain ⟨v, hv⟩ := hn.vertex_some hi (by omega)
    exact ⟨v, (hn.number_iff v i).2 hv⟩
  constructor
  · rw [hn.parent_length, hlast]
  · rw [hn.pred_length, hlast]
  · intro v
    rw [← hset]
    refine ⟨hs.all_numbered v, ?_⟩
    rintro ⟨i, hi⟩
    exact hn.mem_set hi
  · intro v i hv
    have := hn.number_lt hv
    omega
  · intro i hi hle
    obtain ⟨v, hv⟩ := hnumber hi hle
    refine ⟨v, hv, fun u hu => ?_⟩
    have hvi := (hn.number_iff v i).1 hv
    rw [(hn.number_iff u i).1 hu] at hvi
    simpa using hvi
  · exact (hn.number_iff root 1).2 hs.root_number
  · intro w hw hle
    exact D.root_anc hw hle
  · -- Subtrees are intervals of numbers.
    intro u w hle hanc
    exact ⟨D.anc_le hanc hle, fun x hux hxw => D.anc_of_between hanc hle hux hxw⟩
  · intro v w hv hw
    have hlt := (hn.number_lt hv).2
    obtain ⟨u, hu, huv⟩ := hn.parent_edge hw ((hn.number_iff v w).1 hv)
    exact ⟨hn.parent_lt hw hlt, u, (hn.number_iff u _).2 hu, huv⟩
  · intro i j hi
    have := hn.pred_bounds hi
    exact hnumber this.1 (by omega)
  · intro u v i j hu hv
    have hi := hn.number_lt hu
    rw [hs.preds hv i hi.1 hi.2, edgeCount, (hn.number_iff u i).1 hu]
  · -- An edge to a later number stays inside the subtree of its source.
    intro u v i j huv hu hv hlt
    exact D.forward ⟨u, v, (hn.number_iff u i).1 hu, (hn.number_iff v j).1 hv, huv⟩ hlt

/-- The search from the root numbers the reachable nodes from 1 on, depth first. -/
theorem dfs_numbering (hset : ∀ v, v ∈ nodeSet ↔ g.Reachable root v) (fuel : Nat)
    (hfuel : nodeSet.card ≤ fuel) :
    ∃ s, (dfs g nodeSet fuel root 0).run LtState.new = (.ok (), s) ∧
      s.lastIndex = nodeSet.card ∧ DfsNumbering g root s := by
  obtain ⟨s, hrun, hs⟩ := dfs_complete hset fuel hfuel
  have h := hs.dfsNumbering hset
  refine ⟨s, hrun, Nat.le_antisymm ?_ ?_, h⟩
  · have hle := hs.length_le_card
    rw [lastIndex]
    omega
  · -- Different nodes have different numbers.
    have hcard := Finset.card_le_card_of_injOn (s := nodeSet) (t := Finset.Icc 1 s.lastIndex)
      (fun v => (s.number.get? v).getD 0) (by
        intro v hv
        obtain ⟨i, hi⟩ := (h.reachable_iff v).1 ((hset v).1 hv)
        have hb := h.bounds hi
        simp [hi, hb.1, hb.2]) (by
        intro u hu v hv heq
        obtain ⟨i, hi⟩ := (h.reachable_iff u).1 ((hset u).1 hu)
        obtain ⟨j, hj⟩ := (h.reachable_iff v).1 ((hset v).1 hv)
        obtain rfl : i = j := by simpa [hi, hj] using heq
        exact (h.once i (h.bounds hi).1 (h.bounds hi).2).unique hi hj)
    rwa [Nat.card_Icc, Nat.add_sub_cancel] at hcard

/-- A loop between `1` and `2` that is entered at both, with a repeated edge and a way back to the
root. -/
def crossed : Cfg Nat where
  successors n :=
    if n = 0 then [1, 2, 2] else if n = 1 then [2, 3, 1] else if n = 2 then [1, 3]
    else if n = 3 then [0] else []

theorem crossed_reachable (v : Nat) :
    v ∈ ({0, 1, 2, 3} : Finset Nat) ↔ crossed.Reachable 0 v := by
  constructor
  · intro hv
    have hone : crossed.Reachable 0 1 := .single (by decide : 1 ∈ crossed.successors 0)
    have htwo : crossed.Reachable 0 2 := .single (by decide : 2 ∈ crossed.successors 0)
    have hthree : crossed.Reachable 0 3 := htwo.tail (by decide : 3 ∈ crossed.successors 2)
    simp only [Finset.mem_insert, Finset.mem_singleton] at hv
    rcases hv with rfl | rfl | rfl | rfl
    · exact .refl
    · exact hone
    · exact htwo
    · exact hthree
  · intro h
    induction h with
    | refl => decide
    | @tail u v _ huv _ =>
        simp only [Cfg.Edge, crossed] at huv
        split_ifs at huv <;> simp at huv <;> simp <;> omega

theorem dfs_numbering_crossed :
    ∃ s, (dfs crossed {0, 1, 2, 3} 4 0 0).run LtState.new = (.ok (), s) ∧
      s.lastIndex = 4 ∧ DfsNumbering crossed 0 s :=
  dfs_numbering crossed_reachable 4 (by decide)

end Dominator
end Jstd
