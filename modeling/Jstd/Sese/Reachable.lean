import Jstd.Foundation.Multigraph
import Jstd.Foundation.Worklist
import Jstd.Sese.CycleClasses

/-!
# The search and the four predicates built on it

An edge list is a multigraph whose edges are named by their positions.  `reachable` computes the
walks that skip one position, so each predicate of the source is a predicate of the multigraph.
-/

namespace Jstd
namespace Sese

open Foundation

variable {E : Type} {edges : List (IEdge E)} {n : Nat}

/-- All endpoints are node numbers. -/
def InBounds (edges : List (IEdge E)) (n : Nat) : Prop :=
  ∀ edge ∈ edges, edge.fromNode < n ∧ edge.toNode < n

/-- The multigraph of an edge list. -/
def edgeGraph (edges : List (IEdge E)) : Multigraph Nat Nat where
  src i := (edges[i]?.map fun edge => edge.fromNode).getD 0
  dst i := (edges[i]?.map fun edge => edge.toNode).getD 0
  IsEdge i := i < edges.length

theorem edgeGraph_src {i : Nat} {edge : IEdge E} (h : edges[i]? = some edge) :
    (edgeGraph edges).src i = edge.fromNode := by
  simp [edgeGraph, h]

theorem edgeGraph_dst {i : Nat} {edge : IEdge E} (h : edges[i]? = some edge) :
    (edgeGraph edges).dst i = edge.toNode := by
  simp [edgeGraph, h]

theorem edgeGraph_isEdge {i : Nat} {edge : IEdge E} (h : edges[i]? = some edge) :
    (edgeGraph edges).IsEdge i :=
  (List.getElem?_eq_some_iff.1 h).1

theorem exists_edge {i : Nat} (h : (edgeGraph edges).IsEdge i) :
    ∃ edge, edges[i]? = some edge :=
  ⟨_, List.getElem?_eq_getElem h⟩

theorem InBounds.src_lt (h : InBounds edges n) {i : Nat} (hi : (edgeGraph edges).IsEdge i) :
    (edgeGraph edges).src i < n := by
  obtain ⟨edge, hedge⟩ := exists_edge hi
  rw [edgeGraph_src hedge]
  exact (h edge (List.mem_of_getElem? hedge)).1

theorem InBounds.dst_lt (h : InBounds edges n) {i : Nat} (hi : (edgeGraph edges).IsEdge i) :
    (edgeGraph edges).dst i < n := by
  obtain ⟨edge, hedge⟩ := exists_edge hi
  rw [edgeGraph_dst hedge]
  exact (h edge (List.mem_of_getElem? hedge)).2

/-! ## The search -/

section

variable {skip : Option Nat} {reverse : Bool}

/-- What one turn of the search follows. -/
def SearchStep (edges : List (IEdge E)) (skip : Option Nat) (reverse : Bool) (u v : Nat) : Prop :=
  ∃ i edge, edges[i]? = some edge ∧ skip ≠ some i ∧ orient reverse edge = (u, v)

theorem orient_lt (reverse : Bool) (h : InBounds edges n) {edge : IEdge E} (hmem : edge ∈ edges) :
    (orient reverse edge).2 < n := by
  cases reverse with
  | true => exact (h edge hmem).1
  | false => exact (h edge hmem).2

/-- One pass over the edges pushes the targets not seen yet. -/
theorem pushTargets_spec (skip : Option Nat) (reverse : Bool) (node : Nat) {seen : List Bool}
    (hseen : seen.length = n) (pairs : List (IEdge E × Nat))
    (hpairs : ∀ p ∈ pairs, (orient reverse p.1).2 < n) :
    ∀ stack, ∃ stack', pushTargets seen skip reverse node pairs stack = .ok stack' ∧
      (∀ v, v ∈ stack' ↔ v ∈ stack ∨ ∃ p ∈ pairs, skip ≠ some p.2 ∧
        orient reverse p.1 = (node, v) ∧ seen.getD v false = false) ∧
      stack'.length ≤ stack.length +
        (pairs.map Prod.fst).countP fun edge => (orient reverse edge).1 = node := by
  induction pairs with
  | nil =>
      intro stack
      exact ⟨stack, rfl, by simp, by simp⟩
  | cons p pairs ih =>
      obtain ⟨edge, i⟩ := p
      intro stack
      have ih := ih fun q hq => hpairs q (List.mem_cons_of_mem _ hq)
      -- An edge that is passed over.
      have hpass : (skip = some i ∨ (orient reverse edge).1 ≠ node ∨
          seen.getD (orient reverse edge).2 false = true) →
          ∃ stack', pushTargets seen skip reverse node pairs stack = .ok stack' ∧
            (∀ v, v ∈ stack' ↔ v ∈ stack ∨ ∃ p ∈ (edge, i) :: pairs, skip ≠ some p.2 ∧
              orient reverse p.1 = (node, v) ∧ seen.getD v false = false) ∧
            stack'.length ≤ stack.length + (((edge, i) :: pairs).map Prod.fst).countP
              fun edge => (orient reverse edge).1 = node := by
        intro hno
        obtain ⟨stack', hrun, hmem, hlen⟩ := ih stack
        refine ⟨stack', hrun, ?_, ?_⟩
        · intro v
          rw [hmem, List.exists_mem_cons_iff]
          constructor
          · rintro (h | h)
            · exact .inl h
            · exact .inr (.inr h)
          · rintro (h | ⟨hskip, horient, hnew⟩ | h)
            · exact .inl h
            · rcases hno with h | h | h
              · exact absurd h hskip
              · exact absurd (by rw [horient]) h
              · rw [horient] at h
                simp only at h
                rw [hnew] at h
                cases h
            · exact .inr h
        · rw [List.map_cons, List.countP_cons]
          omega
      rw [pushTargets]
      by_cases hskip : skip = some i
      · rw [if_pos hskip]
        exact hpass (.inl hskip)
      · rw [if_neg hskip]
        by_cases hfrom : (orient reverse edge).1 = node
        · rw [if_pos hfrom]
          have hlt : (orient reverse edge).2 < n := hpairs (edge, i) List.mem_cons_self
          have eSeen : index seen (orient reverse edge).2 =
              .ok (seen.getD (orient reverse edge).2 false) := index_of_lt (by omega) false
          rw [eSeen]
          show ∃ stack', (if seen.getD (orient reverse edge).2 false = true then _ else _) = _ ∧ _
          cases hval : seen.getD (orient reverse edge).2 false with
          | true =>
              rw [if_pos rfl]
              exact hpass (.inr (.inr hval))
          | false =>
              rw [if_neg Bool.false_ne_true]
              obtain ⟨stack', hrun, hmem, hlen⟩ := ih ((orient reverse edge).2 :: stack)
              refine ⟨stack', hrun, ?_, ?_⟩
              · intro v
                rw [hmem, List.exists_mem_cons_iff, List.mem_cons]
                constructor
                · rintro ((rfl | h) | h)
                  · exact .inr (.inl ⟨hskip, by rw [← hfrom], hval⟩)
                  · exact .inl h
                  · exact .inr (.inr h)
                · rintro (h | ⟨-, horient, -⟩ | h)
                  · exact .inl (.inr h)
                  · exact .inl (.inl (by rw [horient]))
                  · exact .inr h
              · rw [List.map_cons, List.countP_cons, if_pos (by simpa using hfrom)]
                rw [List.length_cons] at hlen
                omega
        · rw [if_neg hfrom]
          exact hpass (.inr (.inl hfrom))

/-- The nodes marked in `seen`. -/
def seenSet (n : Nat) (seen : List Bool) : Finset Nat :=
  (Finset.range n).filter fun v => seen.getD v false = true

theorem mem_seenSet {seen : List Bool} {v : Nat} (hseen : seen.length = n) :
    v ∈ seenSet n seen ↔ seen.getD v false = true := by
  rw [seenSet, Finset.mem_filter, Finset.mem_range]
  constructor
  · exact fun h => h.2
  · intro h
    refine ⟨?_, h⟩
    by_contra hlt
    rw [List.getD_eq_getElem?_getD, List.getElem?_eq_none (by omega)] at h
    cases h

theorem seenSet_set {seen : List Bool} {node : Nat} (hseen : seen.length = n) (hnode : node < n) :
    seenSet n (seen.set node true) = insert node (seenSet n seen) := by
  ext v
  rw [Finset.mem_insert, mem_seenSet (by rw [List.length_set, hseen]), mem_seenSet hseen, getD_set]
  by_cases h : node = v
  · simp [h, hseen, h ▸ hnode]
  · simp [h, Ne.symm h]

theorem search_spec (hbounds : InBounds edges n) {start : Nat} (fuel : Nat) :
    ∀ seen stack, seen.length = n → (∀ v ∈ stack, v < n) →
      Worklist (SearchStep edges skip reverse) start (seenSet n seen) stack →
      stack.length + pendingDegree
        (fun v => edges.countP fun edge => (orient reverse edge).1 = v)
        (Finset.range n) (seenSet n seen) < fuel →
      ∃ seen', search edges skip reverse fuel seen stack = .ok seen' ∧ seen'.length = n ∧
        ∀ v, seen'.getD v false = true ↔ Reaches (SearchStep edges skip reverse) start v := by
  induction fuel with
  | zero =>
      intro seen stack _ _ _ hlt
      exact absurd hlt (Nat.not_lt_zero _)
  | succ fuel ih =>
      intro seen stack hseen hstack h hlt
      cases stack with
      | nil =>
          refine ⟨seen, rfl, hseen, fun v => ?_⟩
          rw [← mem_seenSet hseen]
          exact h.final v
      | cons node stack =>
          rw [List.length_cons] at hlt
          have hnode := hstack node List.mem_cons_self
          have eSeen : index seen node = .ok (seen.getD node false) :=
            index_of_lt (by omega) false
          rw [search, eSeen]
          show ∃ seen', (if seen.getD node false = true then _ else _) = _ ∧ _
          by_cases hvisited : seen.getD node false = true
          · rw [if_pos hvisited]
            exact ih seen stack hseen (fun v hv => hstack v (List.mem_cons_of_mem _ hv))
              (h.skip ((mem_seenSet hseen).2 hvisited)) (by omega)
          · rw [if_neg hvisited]
            have hnew : node ∉ seenSet n seen := mt (mem_seenSet hseen).1 hvisited
            have hlen : (seen.set node true).length = n := by rw [List.length_set, hseen]
            have hset := seenSet_set hseen hnode
            obtain ⟨stack', hrun, hmem, hle⟩ := pushTargets_spec skip reverse node
              hlen edges.zipIdx
              (by
                intro p hp
                exact orient_lt _ hbounds
                  (List.mem_of_getElem? (List.mk_mem_zipIdx_iff_getElem?.1 hp)))
              stack
            -- The edges out of the node, as positions of the table and as pairs of its enumeration.
            have hstep : ∀ v, SearchStep edges skip reverse node v ↔
                ∃ p ∈ edges.zipIdx, skip ≠ some p.2 ∧ orient reverse p.1 = (node, v) := by
              intro v
              constructor
              · rintro ⟨i, edge, hi, hskip, horient⟩
                exact ⟨(edge, i), List.mk_mem_zipIdx_iff_getElem?.2 hi, hskip, horient⟩
              · rintro ⟨⟨edge, i⟩, hp, hskip, horient⟩
                exact ⟨i, edge, List.mk_mem_zipIdx_iff_getElem?.1 hp, hskip, horient⟩
            have hlt' : ∀ v, SearchStep edges skip reverse node v → v < n := by
              rintro v ⟨i, edge, hi, -, horient⟩
              have hv := orient_lt reverse hbounds (List.mem_of_getElem? hi)
              rw [horient] at hv
              exact hv
            rw [setIndex_of_lt (by omega)]
            show ∃ seen', (pushTargets _ _ _ _ _ _ >>= _) = _ ∧ _
            rw [hrun]
            refine ih (seen.set node true) stack' hlen ?_ ?_ ?_
            · intro v hv
              rcases (hmem v).1 hv with hv | ⟨p, hp, hskip, horient, -⟩
              · exact hstack v (List.mem_cons_of_mem _ hv)
              · exact hlt' v ((hstep v).2 ⟨p, hp, hskip, horient⟩)
            · rw [hset]
              refine h.visit ?_ ?_ ?_
              · intro v hv
                exact (hmem v).2 (.inl hv)
              · intro v hv
                rcases (hmem v).1 hv with hv | ⟨p, hp, hskip, horient, -⟩
                · exact .inl hv
                · exact .inr ((hstep v).2 ⟨p, hp, hskip, horient⟩)
              · intro v hv
                obtain ⟨p, hp, hskip, horient⟩ := (hstep v).1 hv
                cases hval : (seen.set node true).getD v false with
                | true =>
                    rw [← hset]
                    exact .inl ((mem_seenSet hlen).2 hval)
                | false => exact .inr ((hmem v).2 (.inr ⟨p, hp, hskip, horient, hval⟩))
            · -- What is pushed is at most the degree of the node, which stops being pending.
              have hsum := pendingDegree_insert
                (fun v => edges.countP fun edge => (orient reverse edge).1 = v)
                (Finset.mem_range.2 hnode) hnew
              rw [hset]
              rw [List.zipIdx_map_fst] at hle
              omega

theorem reachable_search (skip : Option Nat) (reverse : Bool) (hbounds : InBounds edges n)
    {start : Nat} (hstart : start < n) :
    ∃ seen, reachable edges n start skip reverse = .ok seen ∧ seen.length = n ∧
      ∀ v, seen.getD v false = true ↔ Reaches (SearchStep edges skip reverse) start v := by
  have hnone : seenSet n (List.replicate n false) = ∅ := by
    ext v
    rw [mem_seenSet (by simp), getD_replicate]
    exact iff_of_false Bool.false_ne_true (Finset.notMem_empty v)
  have hsum := sum_countP_le (fun edge => (orient reverse edge).1) edges (Finset.range n)
  refine search_spec hbounds _ _ _ (by simp) (by simpa using hstart) ?_ ?_
  · rw [hnone]
    exact .init _ _
  · rw [hnone, pendingDegree, Finset.sdiff_empty, List.length_singleton]
    omega

end

/-- Forwards, the search finds where the start leads without the edge `skip`. -/
theorem reachable_forward (hbounds : InBounds edges n) {start : Nat} (hstart : start < n)
    (skip : Nat) :
    ∃ seen, reachable edges n start (some skip) false = .ok seen ∧ seen.length = n ∧
      ∀ v, seen.getD v false = true ↔ (edgeGraph edges).Avoiding skip start v := by
  obtain ⟨seen, hrun, hlen, hseen⟩ := reachable_search (some skip) false
    hbounds hstart
  refine ⟨seen, hrun, hlen, fun v => (hseen v).trans ?_⟩
  constructor
  · refine Relation.ReflTransGen.mono ?_ _ _
    rintro x y ⟨i, edge, hi, hskip, horient⟩
    obtain ⟨rfl, rfl⟩ := Prod.mk.inj horient
    exact ⟨i, edgeGraph_isEdge hi, fun h => hskip (by rw [h]), edgeGraph_src hi,
      edgeGraph_dst hi⟩
  · refine Relation.ReflTransGen.mono ?_ _ _
    rintro x y ⟨i, hi, hne, rfl, rfl⟩
    obtain ⟨edge, hedge⟩ := exists_edge hi
    refine ⟨i, edge, hedge, fun h => hne (Option.some.inj h).symm, ?_⟩
    rw [edgeGraph_src hedge, edgeGraph_dst hedge]
    rfl

/-- Backwards, it finds what leads to the start. -/
theorem reachable_backward (hbounds : InBounds edges n) {start : Nat} (hstart : start < n)
    (skip : Nat) :
    ∃ seen, reachable edges n start (some skip) true = .ok seen ∧ seen.length = n ∧
      ∀ v, seen.getD v false = true ↔ (edgeGraph edges).Avoiding skip v start := by
  obtain ⟨seen, hrun, hlen, hseen⟩ := reachable_search (some skip) true
    hbounds hstart
  refine ⟨seen, hrun, hlen, fun v => (hseen v).trans ?_⟩
  constructor
  · intro h
    refine Relation.ReflTransGen.mono ?_ _ _ (Relation.reflTransGen_swap.2 h)
    rintro x y ⟨i, edge, hi, hskip, horient⟩
    obtain ⟨rfl, rfl⟩ := Prod.mk.inj horient
    exact ⟨i, edgeGraph_isEdge hi, fun h => hskip (by rw [h]), edgeGraph_src hi,
      edgeGraph_dst hi⟩
  · intro h
    refine Relation.ReflTransGen.mono ?_ _ _ (Relation.reflTransGen_swap.2 h)
    rintro x y ⟨i, hi, hne, rfl, rfl⟩
    obtain ⟨edge, hedge⟩ := exists_edge hi
    refine ⟨i, edge, hedge, fun h => hne (Option.some.inj h).symm, ?_⟩
    rw [edgeGraph_src hedge, edgeGraph_dst hedge]
    rfl

/-! ## The predicates -/

variable {a b : Nat}

open Classical in
theorem edgeDominates_eq (hbounds : InBounds edges n) {root : Nat} (hroot : root < n)
    (hb : (edgeGraph edges).IsEdge b) :
    edgeDominates edges n root a b =
      .ok (decide ¬ (edgeGraph edges).Avoiding a root ((edgeGraph edges).src b)) := by
  obtain ⟨seen, hrun, hlen, hseen⟩ := reachable_forward hbounds hroot a
  obtain ⟨edge, hedge⟩ := exists_edge hb
  have hlt := hbounds.src_lt hb
  rw [edgeGraph_src hedge] at hlt ⊢
  rw [edgeDominates, hrun, index_of_getElem? hedge]
  show (index seen edge.fromNode >>= _) = _
  rw [index_of_lt (by omega) false]
  show Except.ok (!seen.getD edge.fromNode false) = _
  congr 1
  rw [Bool.eq_iff_iff, Bool.not_eq_true', decide_eq_true_eq, ← hseen, Bool.not_eq_true]

open Classical in
theorem edgePostdominates_eq (hbounds : InBounds edges n) {exit : Nat} (hexit : exit < n)
    (ha : (edgeGraph edges).IsEdge a) :
    edgePostdominates edges n exit b a =
      .ok (decide ¬ (edgeGraph edges).Avoiding b ((edgeGraph edges).dst a) exit) := by
  obtain ⟨seen, hrun, hlen, hseen⟩ := reachable_backward hbounds hexit b
  obtain ⟨edge, hedge⟩ := exists_edge ha
  have hlt := hbounds.dst_lt ha
  rw [edgeGraph_dst hedge] at hlt ⊢
  rw [edgePostdominates, hrun, index_of_getElem? hedge]
  show (index seen edge.toNode >>= _) = _
  rw [index_of_lt (by omega) false]
  show Except.ok (!seen.getD edge.toNode false) = _
  congr 1
  rw [Bool.eq_iff_iff, Bool.not_eq_true', decide_eq_true_eq, ← hseen, Bool.not_eq_true]

open Classical in
theorem cycleEquivalent_eq (hbounds : InBounds edges n) (ha : (edgeGraph edges).IsEdge a)
    (hb : (edgeGraph edges).IsEdge b) :
    cycleEquivalent edges n a b = .ok (decide ((edgeGraph edges).CycleEquivalent a b)) := by
  obtain ⟨edgeA, hA⟩ := exists_edge ha
  obtain ⟨edgeB, hB⟩ := exists_edge hb
  have hA1 := hbounds.src_lt ha
  have hA2 := hbounds.dst_lt ha
  have hB1 := hbounds.src_lt hb
  have hB2 := hbounds.dst_lt hb
  rw [edgeGraph_src hA] at hA1
  rw [edgeGraph_dst hA] at hA2
  rw [edgeGraph_src hB] at hB1
  rw [edgeGraph_dst hB] at hB2
  obtain ⟨seenA, hrunA, hlenA, hseenA⟩ := reachable_forward hbounds hA2 b
  obtain ⟨seenB, hrunB, hlenB, hseenB⟩ := reachable_forward hbounds hB2 a
  rw [cycleEquivalent, index_of_getElem? hA, index_of_getElem? hB]
  show (reachable edges n edgeA.toNode (some b) false >>= _) = _
  rw [hrunA]
  show (index seenA edgeA.fromNode >>= _) = _
  rw [index_of_lt (by omega) false]
  show (reachable edges n edgeB.toNode (some a) false >>= _) = _
  rw [hrunB]
  show (index seenB edgeB.fromNode >>= _) = _
  rw [index_of_lt (by omega) false]
  show Except.ok (!seenA.getD edgeA.fromNode false && !seenB.getD edgeB.fromNode false) = _
  congr 1
  rw [Bool.eq_iff_iff, Bool.and_eq_true, Bool.not_eq_true', Bool.not_eq_true', decide_eq_true_eq,
    ← Bool.not_eq_true, ← Bool.not_eq_true, hseenA, hseenB]
  constructor
  · rintro ⟨h, h'⟩
    refine ⟨?_, ?_⟩
    · rwa [edgeGraph_src hA, edgeGraph_dst hA]
    · rwa [edgeGraph_src hB, edgeGraph_dst hB]
  · rintro ⟨h, h'⟩
    rw [edgeGraph_src hA, edgeGraph_dst hA] at h
    rw [edgeGraph_src hB, edgeGraph_dst hB] at h'
    exact ⟨h, h'⟩

open Classical in
/-- `region_nodes` lists the nodes between the edges, other than the exit. -/
theorem regionNodes_eq (hbounds : InBounds edges n) (ha : (edgeGraph edges).IsEdge a)
    (hb : (edgeGraph edges).IsEdge b) :
    regionNodes edges n a b = .ok ((List.range (n - 1)).filter fun v =>
      (edgeGraph edges).Avoiding b ((edgeGraph edges).dst a) v ∧
        (edgeGraph edges).Avoiding a v ((edgeGraph edges).src b)) := by
  obtain ⟨edgeA, hA⟩ := exists_edge ha
  obtain ⟨edgeB, hB⟩ := exists_edge hb
  have hA2 := hbounds.dst_lt ha
  have hB1 := hbounds.src_lt hb
  rw [edgeGraph_dst hA] at hA2 ⊢
  rw [edgeGraph_src hB] at hB1 ⊢
  -- One search forward from the entry without `b`, one backward from the exit without `a`.
  obtain ⟨forward, hrunF, hlenF, hF⟩ := reachable_forward hbounds hA2 b
  obtain ⟨backward, hrunB, hlenB, hB'⟩ := reachable_backward hbounds hB1 a
  rw [regionNodes, index_of_getElem? hA, index_of_getElem? hB]
  show (reachable edges n edgeA.toNode (some b) false >>= _) = _
  rw [hrunF]
  show (reachable edges n edgeB.fromNode (some a) true >>= _) = _
  rw [hrunB]
  show filterMapChecked _ _ = _
  rw [filterMapChecked_of_ok (g := fun v => if (edgeGraph edges).Avoiding b edgeA.toNode v ∧
    (edgeGraph edges).Avoiding a v edgeB.fromNode then some v else none)]
  · congr 1
    induction List.range (n - 1) with
    | nil => rfl
    | cons v vs ih =>
        rw [List.filterMap_cons, List.filter_cons, ih]
        by_cases hv : (edgeGraph edges).Avoiding b edgeA.toNode v ∧
            (edgeGraph edges).Avoiding a v edgeB.fromNode
        · simp [hv]
        · simp [hv]
  · intro v hv
    have hlt := List.mem_range.1 hv
    rw [index_of_lt (by omega) false]
    show (if forward.getD v false = true then _ else _) = _
    by_cases hforward : forward.getD v false = true
    · rw [if_pos hforward, index_of_lt (by omega) false]
      show Except.ok (if backward.getD v false = true then some v else none) = _
      congr 1
      refine if_congr ?_ rfl rfl
      rw [hB', ← hF]
      simp only [hforward, true_and]
    · rw [if_neg hforward, if_neg (by rw [← hF]; exact fun h => hforward h.1)]
      rfl

end Sese
end Jstd
