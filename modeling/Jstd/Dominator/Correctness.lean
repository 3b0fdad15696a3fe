import Jstd.Dominator.IndexGraph
import Jstd.Dominator.Passes
import Jstd.Dominator.Search

/-!
# Correctness of compute_dominators

The three stages meet here: the numbering starts the main loop (`Complete.processed`), the second
pass settles what the main loop deferred (`settleIdom_spec`), and the numbers are read back as
nodes (`recordVertices_spec`).
-/

namespace Jstd
namespace Dominator

open Foundation LtState

variable {N : Type} {E : Nat → Nat → Prop} {parent : Nat → Nat} {n w : Nat}

/-! ## The second pass -/

/-- The vertices below `w` have their immediate dominators, the others still what `s` held. -/
structure Settled (E : Nat → Nat → Prop) (n w : Nat) (s t : LtState N) : Prop where
  rest : ∃ I, t = { s with idom := I }
  length : t.idom.length = n + 1
  below : ∀ v, 2 ≤ v → v < w → IsIdom E 1 (t.idomOf v) v
  above : ∀ v, w ≤ v → t.idomOf v = s.idomOf v

theorem settleIdom_spec (D : DepthFirst E parent n) {s t : LtState N} (hs : Sized n s)
    (hsemi : s.semiOf w = sdom E w) (hdeferred : Deferred E parent w (s.idomOf w)) (hw : 2 ≤ w)
    (hwn : w ≤ n) (ht : Settled E n w s t) :
    ∃ t', (settleIdom w).run t = (.ok (), t') ∧ Settled E n (w + 1) s t' := by
  have hidom := ht.above w (Nat.le_refl w)
  have hsame : t.semi = s.semi := by
    obtain ⟨I, hrest⟩ := ht.rest
    rw [hrest]
  have eI : index t.idom w = .ok (s.idomOf w) := by
    rw [← hidom]
    exact index_of_lt (by rw [ht.length]; omega) 0
  have eS : index t.semi w = .ok (sdom E w) := by
    rw [hsame, ← hsemi]
    exact index_of_lt (by rw [hs.semi]; omega) 0
  simp only [settleIdom, Method.run_bind_get, eI, eS, Method.run_bind_liftM_ok]
  -- Either the semidominator is the answer, or the answer of a smaller vertex is.
  rcases hdeferred with ⟨heq, hmin⟩ | ⟨hgt, hanc, hlt, hleast⟩
  · refine ⟨t, by rw [if_pos heq]; rfl, ht.rest, ht.length, ?_, fun v hv => ht.above v (by omega)⟩
    intro v hv2 hvw
    rcases Nat.lt_or_eq_of_le (Nat.le_of_lt_succ hvw) with hlt | rfl
    · exact ht.below v hv2 hlt
    · rw [hidom, heq]
      exact D.isIdom_sdom hv2 hwn hmin
  · have hle := D.anc_le hanc hwn
    have hone := D.one_le_sdom hw hwn
    have hne : s.idomOf w ≠ w := by
      intro heq
      rw [heq] at hlt
      exact Nat.lt_irrefl _ hlt
    have eII : index t.idom (s.idomOf w) = .ok (t.idomOf (s.idomOf w)) :=
      index_of_lt (by rw [ht.length]; omega) 0
    have hwl : w < t.idom.length := by rw [ht.length]; omega
    have hget : ∀ x, (t.idom.set w (t.idomOf (s.idomOf w))).getD x 0 =
        if x = w then t.idomOf (s.idomOf w) else t.idomOf x := by
      intro x
      rw [getD_set]
      by_cases hx : x = w
      · rw [if_pos ⟨hx.symm, hwl⟩, if_pos hx]
      · rw [if_neg (by rintro ⟨h, -⟩; exact hx h.symm), if_neg hx]
        rfl
    refine ⟨{ t with idom := t.idom.set w (t.idomOf (s.idomOf w)) }, ?_, ?_, ?_, ?_, ?_⟩
    · rw [if_neg (Nat.ne_of_gt hgt)]
      simp only [eII, Method.run_bind_liftM_ok, setIndex_of_lt hwl]
      rfl
    · obtain ⟨I, hrest⟩ := ht.rest
      exact ⟨t.idom.set w (t.idomOf (s.idomOf w)), by rw [hrest]⟩
    · show (t.idom.set w _).length = n + 1
      rw [List.length_set, ht.length]
    · intro v hv2 hvw
      rw [idomOf, hget]
      split
      · rename_i hvw'
        rw [hvw']
        exact D.isIdom_of_least hw hwn hgt hanc hlt hleast
          (ht.below _ (by omega) (Nat.lt_of_le_of_ne hle hne))
      · exact ht.below v hv2 (by omega)
    · intro v hv
      rw [idomOf, hget, if_neg (by omega)]
      exact ht.above v (by omega)

/-! ## All passes -/

variable [DecidableEq N] {g : Cfg N} {nodeSet : Finset N} {root : N}

/-- The main loop begins with nothing processed. -/
theorem Complete.processed {s : LtState N} (hs : Complete g nodeSet root s) :
    Processed (indexEdge g s) s.parentOf (s.vertex.length - 1) (s.vertex.length - 1)
      (s.vertex.length - 1) s s := by
  have hn := hs.numbered
  have htwo := hs.two_le_length
  have hlen : s.vertex.length - 1 + 1 = s.vertex.length := by omega
  have hancestor : ∀ v, s.ancestorOf v = 0 := by
    intro v
    rw [ancestorOf, hn.ancestor_eq]
    simp
  have hbucket : ∀ b, s.bucketOf b = [] := by
    intro b
    rw [bucketOf, hn.bucket_eq]
    simp
  have hrange : ∀ {v}, v ≤ s.vertex.length - 1 → (List.range s.vertex.length).getD v 0 = v := by
    intro v hv
    rw [List.getD_eq_getElem?_getD, List.getElem?_range (by omega)]
    rfl
  -- Nothing is linked and no bucket is filled before the passes.
  constructor
  · constructor
    · rw [hn.semi_eq, List.length_range, hlen]
    · rw [hn.idom_eq, List.length_replicate, hlen]
    · rw [hn.ancestor_eq, List.length_replicate, hlen]
    · rw [hn.label_eq, List.length_range, hlen]
    · rw [hn.bucket_eq, List.length_replicate, hlen]
  · rfl
  · rfl
  · rfl
  · constructor
    · intro v _
      exact hancestor v
    · intro v _ hv
      rw [labelOf, hn.label_eq]
      exact hrange hv
    · intro v hv hvn
      omega
  · intro u hu hun
    omega
  · intro r _ hr
    rw [semiOf, hn.semi_eq]
    exact hrange hr
  · intro b v hv
    rw [hbucket] at hv
    cases hv
  · intro v hv hvn
    omega

/-- The main loop ends, and `semi` holds the semidominators. -/
theorem mainLoop_spec {s : LtState N} (hs : Complete g nodeSet root s) (fuel : Nat)
    (hfuel : s.vertex.length ≤ fuel) :
    ∃ t, (Method.forDown 2 (processVertex fuel) (s.lastIndex - 1)).run s = (.ok (), t) ∧
      Processed (indexEdge g s) s.parentOf s.lastIndex 1 1 s t := by
  have htwo := hs.two_le_length
  have hn := hs.numbered
  have hlast : s.lastIndex - 1 + 1 = s.vertex.length - 1 := by
    rw [lastIndex]
    omega
  refine Method.forDown_induction 2 (processVertex fuel)
    (fun k t => Processed (indexEdge g s) s.parentOf s.lastIndex (k + 1) (k + 1) s t) ?_ ?_
  · show Processed _ _ _ (s.lastIndex - 1 + 1) (s.lastIndex - 1 + 1) s s
    rw [hlast]
    exact hs.processed
  · intro k t hk ht
    have hkn : k + 1 + 1 < s.vertex.length := by omega
    rw [show 2 + k = k + 1 + 1 by omega]
    refine processVertex_spec hs.depthFirst (by omega) (by omega) ht (by omega)
      (index_of_lt (by rw [hn.parent_length]; exact hkn) 0)
      (index_of_lt (by rw [hn.pred_length]; exact hkn) []) ?_
    intro v
    exact hs.mem_predOf (by omega) hkn

/-- The main loop computes semidominators: least starts of walks through larger numbers. -/
theorem mainLoop_semidominators (hset : ∀ v, v ∈ nodeSet ↔ g.Reachable root v) (fuel : Nat)
    (hfuel : nodeSet.card + 2 ≤ fuel) :
    ∃ s t, (dfs g nodeSet fuel root 0).run LtState.new = (.ok (), s) ∧
      (Method.forDown 2 (processVertex fuel) (s.lastIndex - 1)).run s = (.ok (), t) ∧
      t.vertex = s.vertex ∧
      ∀ w, 2 ≤ w → w ≤ t.lastIndex → ∃ v, index t.semi w = .ok v ∧
        IsLeast {v | Through (indexEdge g t) (fun y => w < y) v w} v := by
  obtain ⟨s, hdfs, hs⟩ := dfs_complete hset fuel (by omega)
  obtain ⟨t, hmain, ht⟩ := mainLoop_spec hs fuel (by
    have := hs.length_le_card
    omega)
  have hlast : t.lastIndex = s.lastIndex := by rw [lastIndex, lastIndex, ht.vertex_eq]
  have hedge : indexEdge g t = indexEdge g s := by
    funext i j
    rw [indexEdge, indexEdge, ht.vertex_eq]
  refine ⟨s, t, hdfs, hmain, ht.vertex_eq, fun w hw hwn => ?_⟩
  rw [hlast] at hwn
  rw [hedge]
  have hsemi : t.semiOf w = sdom (indexEdge g s) w := ht.semi_above (by omega) hwn
  refine ⟨sdom (indexEdge g s) w, ?_, hs.depthFirst.sdom_through hw hwn, fun v hv => sdom_le hv⟩
  rw [← hsemi]
  exact index_of_lt (by rw [ht.sized.semi]; omega) 0

theorem mainLoop_semidominators_crossed :
    ∃ s t, (dfs crossed {0, 1, 2, 3} 6 0 0).run LtState.new = (.ok (), s) ∧
      (Method.forDown 2 (processVertex 6) (s.lastIndex - 1)).run s = (.ok (), t) ∧
      t.vertex = s.vertex ∧
      ∀ w, 2 ≤ w → w ≤ t.lastIndex → ∃ v, index t.semi w = .ok v ∧
        IsLeast {v | Through (indexEdge crossed t) (fun y => w < y) v w} v :=
  mainLoop_semidominators crossed_reachable 6 (by decide)

/-- The passes end with the immediate dominator of every vertex but the root. -/
theorem tarjanPasses_spec (hset : ∀ v, v ∈ nodeSet ↔ g.Reachable root v) {fuel : Nat}
    (hfuel : nodeSet.card + 2 ≤ fuel) :
    ∃ s t, (tarjanPasses fuel g nodeSet root).run LtState.new = (.ok (), t) ∧
      Complete g nodeSet root s ∧ t.vertex = s.vertex ∧ t.pred = s.pred ∧
      t.idom.length = s.vertex.length ∧
      ∀ v, 2 ≤ v → v < s.vertex.length → IsIdom (indexEdge g s) 1 (t.idomOf v) v := by
  obtain ⟨s, hdfs, hs⟩ := dfs_complete hset fuel (by omega)
  have htwo := hs.two_le_length
  obtain ⟨s₁, hmain, hs₁⟩ := mainLoop_spec hs fuel (by
    have := hs.length_le_card
    omega)
  have hlast : s.lastIndex = s.vertex.length - 1 := rfl
  -- The last loop goes up, so that what a deferred answer refers to is settled before it.
  obtain ⟨t, hsettle, ht⟩ := Method.forUp_induction 2 (s.lastIndex - 1)
    settleIdom (fun w t => Settled (indexEdge g s) s.lastIndex w s₁ t) (s := s₁)
    ⟨⟨_, rfl⟩, hs₁.sized.idom, fun v hv2 hv => by omega, fun _ _ => rfl⟩
    (by
      intro w t hw2 hwn ht
      refine settleIdom_spec hs.depthFirst hs₁.sized (hs₁.semi_above (by omega) (by omega)) ?_ hw2
        (by omega) ht
      -- No vertex is left in a bucket when the main loop is over.
      rcases hs₁.decided (v := w) (by omega) (by omega) with hv | hv
      · obtain ⟨-, -, -, c, hc2, -, -, hc1⟩ := hs₁.bucket_sound hv
        omega
      · exact hv)
  obtain ⟨I, hrest⟩ := ht.rest
  refine ⟨s, t, ?_, hs, ?_, ?_, ?_, ?_⟩
  · rw [tarjanPasses, Method.run_bind_of_ok hdfs]
    simp only [Method.run_bind_get]
    rw [Method.run_bind_of_ok hmain]
    exact hsettle
  · rw [hrest]
    exact hs₁.vertex_eq
  · rw [hrest]
    exact hs₁.pred_eq
  · rw [ht.length, hlast]
    omega
  · intro v hv2 hv
    exact ht.below v hv2 (by omega)

/-! ## From numbers to nodes -/

omit [DecidableEq N] in
theorem vertexAt_ok {s : LtState N} {i : Nat} {v : N} (h : s.vertex[i]? = some (some v))
    (text : String) : vertexAt s text i = .ok v := by
  rw [vertexAt, index_of_getElem? h]
  rfl

omit [DecidableEq N] in
/-- The nodes of a predecessor list. -/
theorem predNodes_spec {s : LtState N} (is : List Nat)
    (h : ∀ i ∈ is, ∃ v, s.vertex[i]? = some (some v)) :
    ∃ nodes, predNodes s is = .ok nodes ∧
      nodes.map some = is.map fun i => (s.vertex[i]?).getD none := by
  induction is with
  | nil => exact ⟨[], rfl, rfl⟩
  | cons i is ih =>
      obtain ⟨v, hv⟩ := h i List.mem_cons_self
      obtain ⟨nodes, hnodes, hmap⟩ := ih fun j hj => h j (List.mem_cons_of_mem i hj)
      refine ⟨v :: nodes, ?_, ?_⟩
      · rw [predNodes, vertexAt_ok hv, hnodes]
        rfl
      · rw [List.map_cons, List.map_cons, hmap, hv]
        rfl

/-- Every number of `ws` is recorded under its node; other nodes keep what they had. -/
theorem recordVertices_spec {t : LtState N}
    (hinj : ∀ {i j : Nat} {v : N}, t.vertex[i]? = some (some v) → t.vertex[j]? = some (some v) →
      i = j) (ws : List Nat)
    (hws : ∀ w ∈ ws, ∃ v d, t.vertex[w]? = some (some v) ∧ w < t.idom.length ∧
      t.vertex[t.idomOf w]? = some (some d) ∧ w < t.pred.length ∧
      ∀ i ∈ t.predOf w, ∃ u, t.vertex[i]? = some (some u)) :
    ∀ result, ∃ r, recordVertices t ws result = .ok r ∧
      (∀ w ∈ ws, ∀ v, t.vertex[w]? = some (some v) →
        some (r.idom.get? v) = t.vertex[t.idomOf w]? ∧
        ∃ nodes, r.preds.get? v = some nodes ∧
          nodes.map some = (t.predOf w).map fun i => (t.vertex[i]?).getD none) ∧
      ∀ v, (∀ w ∈ ws, t.vertex[w]? ≠ some (some v)) →
        r.idom.get? v = result.idom.get? v ∧ r.preds.get? v = result.preds.get? v := by
  induction ws with
  | nil =>
      intro result
      refine ⟨result, rfl, ?_, fun v _ => ⟨rfl, rfl⟩⟩
      intro w hw
      cases hw
  | cons w ws ih =>
      intro result
      obtain ⟨v, d, hv, hwi, hd, hwp, hpreds⟩ := hws w List.mem_cons_self
      obtain ⟨nodes, hnodes, hmap⟩ := predNodes_spec (t.predOf w) hpreds
      obtain ⟨r, hr, hin, hout⟩ := ih (fun x hx => hws x (List.mem_cons_of_mem w hx))
        { idom := result.idom.insert v d, preds := result.preds.insert v nodes }
      have eI : index t.idom w = .ok (t.idomOf w) := index_of_lt hwi 0
      have eP : index t.pred w = .ok (t.predOf w) := index_of_lt hwp []
      refine ⟨r, ?_, ?_, ?_⟩
      · rw [recordVertices, vertexAt_ok hv, eI]
        show (vertexAt t "idom index must map to a node" (t.idomOf w) >>= _) = _
        rw [vertexAt_ok hd, eP]
        show (predNodes t (t.predOf w) >>= _) = _
        rw [hnodes]
        exact hr
      · intro x hx v' hv'
        -- A later number of the same node would have overwritten the entry.
        by_cases hlater : ∃ y ∈ ws, t.vertex[y]? = some (some v')
        · obtain ⟨y, hy, hyv⟩ := hlater
          obtain rfl := hinj hv' hyv
          exact hin x hy v' hv'
        · have hout' := hout v' fun y hy hyv => hlater ⟨y, hy, hyv⟩
          rcases List.mem_cons.1 hx with rfl | hx
          · rw [hv] at hv'
            obtain rfl : v = v' := by simpa using hv'
            rw [hout'.1, hout'.2, HashMap.get?_insert_self, HashMap.get?_insert_self]
            exact ⟨hd.symm, nodes, rfl, hmap⟩
          · exact absurd ⟨x, hx, hv'⟩ hlater
      · intro v' hv'
        have hne : v' ≠ v := by
          rintro rfl
          exact hv' w List.mem_cons_self hv
        have hout' := hout v' fun y hy => hv' y (List.mem_cons_of_mem w hy)
        rw [hout'.1, hout'.2, HashMap.get?_insert, HashMap.get?_insert, if_neg hne, if_neg hne]
        exact ⟨rfl, rfl⟩

/-- What `run_lengauer_tarjan` returns: immediate dominators and predecessors, by node. -/
theorem runLengauerTarjan_spec (hset : ∀ v, v ∈ nodeSet ↔ g.Reachable root v) (fuel : Nat)
    (hfuel : nodeSet.card + 2 ≤ fuel) :
    ∃ s r, Complete g nodeSet root s ∧ runLengauerTarjan fuel g nodeSet root = .ok r ∧
      (∀ w v, 2 ≤ w → s.vertex[w]? = some (some v) →
        ∃ i d, s.vertex[i]? = some (some d) ∧ r.idom.get? v = some d ∧
          IsIdom (indexEdge g s) 1 i w) ∧
      (∀ w v, 2 ≤ w → s.vertex[w]? = some (some v) →
        ∃ nodes, r.preds.get? v = some nodes ∧
          nodes.map some = (s.predOf w).map fun i => (s.vertex[i]?).getD none) ∧
      ∀ v, (∀ w, 2 ≤ w → s.vertex[w]? ≠ some (some v)) →
        r.idom.get? v = none ∧ r.preds.get? v = if v = root then some [] else none := by
  obtain ⟨s, t, hrun, hs, hvertex, hpred, hlength, hidom⟩ := tarjanPasses_spec hset hfuel
  have htwo := hs.two_le_length
  have hlast : t.lastIndex = s.vertex.length - 1 := by rw [lastIndex, hvertex]
  have hpredOf : ∀ w, t.predOf w = s.predOf w := by
    intro w
    rw [predOf, hpred]
    rfl
  -- The immediate dominator of a number is a number.
  have hnode : ∀ w, 2 ≤ w → w < s.vertex.length →
      ∃ d, s.vertex[t.idomOf w]? = some (some d) := by
    intro w hw2 hw
    have hanc := hs.depthFirst.anc_of_dominates (hidom w hw2 hw).dominates (by omega) (by omega)
    have hle := hs.depthFirst.anc_le hanc (by omega)
    exact hs.numbered.vertex_some (hs.depthFirst.one_le_of_anc hanc (by omega) (by omega))
      (by omega)
  have hmem : ∀ w, w ∈ List.range' 2 (t.lastIndex - 1) ↔ 2 ≤ w ∧ w < s.vertex.length := by
    intro w
    rw [List.mem_range'_1, hlast]
    omega
  obtain ⟨r, hr, hin, hout⟩ := recordVertices_spec (t := t)
    (by
      intro i j v hi hj
      rw [hvertex] at hi hj
      exact hs.vertex_inj hi hj)
    (List.range' 2 (t.lastIndex - 1))
    (by
      intro w hw
      obtain ⟨hw2, hwlt⟩ := (hmem w).1 hw
      obtain ⟨v, hv⟩ := hs.numbered.vertex_some (i := w) (by omega) hwlt
      obtain ⟨d, hd⟩ := hnode w hw2 hwlt
      refine ⟨v, d, by rw [hvertex, hv], by omega, by rw [hvertex, hd], ?_, ?_⟩
      · rw [hpred, hs.numbered.pred_length]
        exact hwlt
      · intro i hi
        rw [hpredOf] at hi
        obtain ⟨hi1, hilt⟩ := hs.numbered.pred_bounds hi
        rw [hvertex]
        exact hs.numbered.vertex_some hi1 hilt)
    { idom := .empty, preds := HashMap.empty.insert root [] }
  refine ⟨s, r, hs, ?_, ?_, ?_, ?_⟩
  · rw [runLengauerTarjan, hrun]
    have hroot : t.vertex[1]? = some (some root) := by rw [hvertex, hs.root_number]
    simp only [if_neg (show t.lastIndex ≠ 0 by omega), vertexAt_ok hroot]
    exact hr
  · intro w v hw2 hv
    have hwlt := (hs.vertex_pos hv).2
    obtain ⟨d, hd⟩ := hnode w hw2 hwlt
    have hget := (hin w ((hmem w).2 ⟨hw2, hwlt⟩) v (by rw [hvertex, hv])).1
    rw [hvertex, hd] at hget
    exact ⟨t.idomOf w, d, hd, Option.some.inj hget, hidom w hw2 hwlt⟩
  · intro w v hw2 hv
    have hwlt := (hs.vertex_pos hv).2
    have hget := (hin w ((hmem w).2 ⟨hw2, hwlt⟩) v (by rw [hvertex, hv])).2
    rw [hpredOf, hvertex] at hget
    exact hget
  · intro v hv
    have hget := hout v fun w hw => by
      rw [hvertex]
      exact hv w ((hmem w).1 hw).1
    rw [hget.1, hget.2, HashMap.get?_empty, HashMap.get?_insert]
    exact ⟨rfl, by rw [HashMap.get?_empty]⟩

/-! ## The dominator tree -/

/-- What the fields of the tree say about the graph. -/
structure DominatorTree.Computed (g : Cfg N) (root : N) (tree : DominatorTree N) : Prop where
  root_eq : tree.root = root
  idom_iff : ∀ n d, tree.idom.get? n = some d ↔
    g.Reachable root n ∧ n ≠ root ∧ IsIdom g.Edge root d n
  exists_idom : ∀ n, g.Reachable root n → n ≠ root → ∃ d, tree.idom.get? n = some d
  preds : ∀ n, g.Reachable root n → n ≠ root → ∃ nodes, tree.preds.get? n = some nodes ∧
    ∀ p, p ∈ nodes ↔ g.Reachable root p ∧ g.Edge p n
  preds_reachable : ∀ n nodes, tree.preds.get? n = some nodes → g.Reachable root n

/-- Every other node has no immediate dominator. -/
theorem DominatorTree.Computed.idom_eq_none {tree : DominatorTree N} (h : tree.Computed g root)
    {n : N} : tree.idom.get? n = none ↔ n = root ∨ ¬ g.Reachable root n := by
  constructor
  · intro hnone
    by_contra hn
    rw [not_or, not_not] at hn
    obtain ⟨d, hd⟩ := h.exists_idom n hn.2 hn.1
    rw [hnone] at hd
    cases hd
  · intro hn
    rw [Option.eq_none_iff_forall_not_mem]
    intro d hd
    obtain ⟨hreach, hne, -⟩ := (h.idom_iff n d).1 hd
    rcases hn with hn | hn
    · exact hne hn
    · exact hn hreach

/-- Every node reachable from the root but the root itself has a number above 1. -/
theorem Complete.exists_number_of_ne {s : LtState N} (hs : Complete g nodeSet root s)
    (hset : ∀ v, v ∈ nodeSet ↔ g.Reachable root v) {n : N} (hn : g.Reachable root n)
    (hne : n ≠ root) : ∃ w : Nat, 2 ≤ w ∧ s.vertex[w]? = some (some n) := by
  obtain ⟨w, hw⟩ := hs.exists_number hset hn
  have hw1 := hs.vertex_pos hw
  have hw' : w ≠ 1 := by
    rintro rfl
    rw [hs.root_number] at hw
    exact hne (by simpa using hw.symm)
  exact ⟨w, by omega, hw⟩

/-- The nodes recorded for a number are the sources of the edges to its node. -/
theorem Complete.mem_predNodes {s : LtState N} (hs : Complete g nodeSet root s)
    (hset : ∀ v, v ∈ nodeSet ↔ g.Reachable root v) {w : Nat} {n : N}
    (hw : s.vertex[w]? = some (some n)) {nodes : List N}
    (hnodes : nodes.map some = (s.predOf w).map fun i => (s.vertex[i]?).getD none) {p : N} :
    p ∈ nodes ↔ g.Reachable root p ∧ g.Edge p n := by
  have hwlt := hs.vertex_pos hw
  have hmem : p ∈ nodes ↔ ∃ i ∈ s.predOf w, (s.vertex[i]?).getD none = some p := by
    rw [← List.mem_map_of_injective (Option.some_injective N), hnodes, List.mem_map]
  rw [hmem]
  constructor
  · rintro ⟨i, hi, hp⟩
    obtain ⟨hi1, hilt⟩ := hs.numbered.pred_bounds hi
    obtain ⟨u, hu⟩ := hs.numbered.vertex_some hi1 hilt
    obtain ⟨u', v, hu', hv, hedge⟩ := (hs.mem_predOf hwlt.1 hwlt.2).1 hi
    rw [hu, Option.getD_some] at hp
    rw [hu', hp] at hu
    rw [hw] at hv
    obtain rfl : u' = p := by simpa using hu
    obtain rfl : n = v := by simpa using hv
    exact ⟨hs.reachable hset hu', hedge⟩
  · rintro ⟨hp, hedge⟩
    obtain ⟨i, hi⟩ := hs.exists_number hset hp
    exact ⟨i, (hs.mem_predOf hwlt.1 hwlt.2).2 ⟨p, n, hi, hw, hedge⟩, by rw [hi]; rfl⟩

/-- The tree is computed for every finite graph. -/
theorem computeDominators_spec (g : Cfg N) (root : N)
    (hfinite : {n | g.Reachable root n}.Finite) :
    ∃ enough, ∀ fuel, enough ≤ fuel → ∃ tree, computeDominators fuel g root = .ok tree ∧
      tree.Computed g root := by
  obtain ⟨reach, hreach⟩ := hfinite.exists_finset
  refine ⟨reach.card + 2 + pendingEdges g reach ∅, ?_⟩
  intro fuel hfuel
  obtain ⟨nodes, hnodes, -, hmem⟩ := reachableFromRoot_spec g root hreach fuel (by
    have := Finset.card_pos.2 ⟨root, (hreach root).2 .refl⟩
    omega)
  have hset : ∀ v, v ∈ nodes.toFinset ↔ g.Reachable root v := by
    intro v
    rw [List.mem_toFinset, hmem]
  have hcard : nodes.toFinset = reach := by
    ext v
    rw [hset, hreach]
    rfl
  obtain ⟨s, r, hs, hrun, hidom, hpreds, hnone⟩ :=
    runLengauerTarjan_spec hset fuel (by rw [hcard]; omega)
  -- The root and the unreachable nodes have no number of their own to be recorded under.
  have hother : ∀ n, n = root ∨ ¬ g.Reachable root n →
      r.idom.get? n = none ∧ r.preds.get? n = if n = root then some [] else none := by
    intro n hn
    refine hnone n ?_
    intro w hw2 hw
    rcases hn with rfl | hn
    · have := hs.vertex_inj hw hs.root_number
      omega
    · exact hn (hs.reachable hset hw)
  refine ⟨{ root := root, idom := r.idom, preds := r.preds }, ?_, rfl, ?_, ?_, ?_, ?_⟩
  · rw [computeDominators, hnodes]
    show (runLengauerTarjan fuel g nodes.toFinset root >>= _) = _
    rw [hrun]
    rfl
  · intro n d
    constructor
    · intro hget
      by_cases hn : n = root ∨ ¬ g.Reachable root n
      · rw [(hother n hn).1] at hget
        cases hget
      · rw [not_or, not_not] at hn
        obtain ⟨w, hw2, hw⟩ := hs.exists_number_of_ne hset hn.2 hn.1
        obtain ⟨i, d', hd', hget', hi⟩ := hidom w n hw2 hw
        rw [hget', Option.some.injEq] at hget
        subst hget
        exact ⟨hn.2, hn.1, (hs.isIdom_iff_index hset hd' hw).1 hi⟩
    · rintro ⟨hn, hne, hd⟩
      obtain ⟨w, hw2, hw⟩ := hs.exists_number_of_ne hset hn hne
      obtain ⟨i, d', hd', hget', hi⟩ := hidom w n hw2 hw
      obtain ⟨l, hl⟩ := exists_path_of_reaches hn
      obtain ⟨l', hl', -⟩ := hl.exists_prefix (hd.dominates l hl)
      obtain ⟨j, hj⟩ := hs.exists_number hset hl'.reaches
      have hw1 := hs.vertex_pos hw
      -- Both `i` and the number of `d` are the immediate dominator of `w`.
      have heq := hs.depthFirst.isIdom_unique (by omega) (by omega) hi
        ((hs.isIdom_iff_index hset hj hw).2 hd)
      rw [← heq, hd'] at hj
      obtain rfl : d' = d := by simpa using hj
      exact hget'
  · intro n hn hne
    obtain ⟨w, hw2, hw⟩ := hs.exists_number_of_ne hset hn hne
    obtain ⟨i, d, -, hget, -⟩ := hidom w n hw2 hw
    exact ⟨d, hget⟩
  · intro n hn hne
    obtain ⟨w, hw2, hw⟩ := hs.exists_number_of_ne hset hn hne
    obtain ⟨preds, hget, hmap⟩ := hpreds w n hw2 hw
    exact ⟨preds, hget, fun p => hs.mem_predNodes hset hw hmap⟩
  · intro n preds hget
    by_contra hn
    have hnroot : n ≠ root := by
      rintro rfl
      exact hn .refl
    rw [(hother n (.inr hn)).2, if_neg hnroot] at hget
    cases hget

/-- The immediate dominators of the tree are the immediate dominators of the graph. -/
theorem computeDominators_immediateDominator (g : Cfg N) (root : N)
    (hfinite : {n | g.Reachable root n}.Finite) :
    ∃ enough, ∀ fuel, enough ≤ fuel → ∃ tree, computeDominators fuel g root = .ok tree ∧
      (∀ n d, tree.immediateDominator n = some d ↔
        g.Reachable root n ∧ n ≠ root ∧ IsIdom g.Edge root d n) ∧
      ∀ n, tree.immediateDominator n = none ↔ n = root ∨ ¬ g.Reachable root n := by
  obtain ⟨enough, h⟩ := computeDominators_spec g root hfinite
  refine ⟨enough, ?_⟩
  intro fuel hfuel
  obtain ⟨tree, hrun, htree⟩ := h fuel hfuel
  exact ⟨tree, hrun, htree.idom_iff, fun n => htree.idom_eq_none⟩

/-- A diamond with a repeated edge and a self-loop. -/
def diamond : Cfg Nat where
  successors n := if n = 0 then [2, 1, 2] else if n < 3 then [3] else if n = 3 then [3] else []

theorem diamond_reachable_le {n : Nat} (h : diamond.Reachable 0 n) : n ≤ 3 := by
  induction h with
  | refl => exact Nat.zero_le 3
  | @tail u v _ huv _ =>
      simp only [Cfg.Edge, diamond] at huv
      split_ifs at huv <;> simp at huv <;> omega

theorem computeDominators_immediateDominator_diamond :
    ∃ enough, ∀ fuel, enough ≤ fuel → ∃ tree, computeDominators fuel diamond 0 = .ok tree ∧
      (∀ n d, tree.immediateDominator n = some d ↔
        diamond.Reachable 0 n ∧ n ≠ 0 ∧ IsIdom diamond.Edge 0 d n) ∧
      ∀ n, tree.immediateDominator n = none ↔ n = 0 ∨ ¬ diamond.Reachable 0 n :=
  computeDominators_immediateDominator diamond 0
    ((Set.finite_Iic 3).subset fun _ h => diamond_reachable_le h)

example : (computeDominators 20 diamond 0).toOption.map
    (fun tree => (List.range 5).map tree.immediateDominator) =
      some [none, some 0, some 0, some 0, none] := by
  decide +kernel

end Dominator
end Jstd
