import Jstd.Sese.Correctness
import Jstd.Sese.Orders

/-!
# SESE analysis reads the reachable part alone

Two graphs can have the same edges out of what the root reaches and differ everywhere else: in the
code that is dead, in the edges of a node to itself.  `originalEdges` filters both away, and the
search reaches the same nodes in either graph, so the two flow graphs are one, and the results with
them.
-/

namespace Jstd

open Foundation

/-! ## Graphs that agree from a root -/

namespace GraphView

section Agreement

variable {NodeId EdgeId : Type} [DecidableEq NodeId] {g g' : GraphView NodeId EdgeId}
  {root : NodeId}

/-- The graphs have the same edges out of the nodes `g` reaches, the self-loops left out. -/
def AgreesFrom (g g' : GraphView NodeId EdgeId) (root : NodeId) : Prop :=
  ∀ edge : GraphEdge NodeId EdgeId, edge.fromId ≠ edge.toId → g.Reachable root edge.fromId →
    (edge ∈ g.edges ↔ edge ∈ g'.edges)

namespace AgreesFrom

theorem reachable (h : AgreesFrom g g' root) {v : NodeId} (hv : g.Reachable root v) :
    g'.Reachable root v := by
  induction hv with
  | refl => exact .refl
  | tail hu hstep ih =>
      obtain ⟨edge, hmem, rfl, rfl⟩ := hstep
      by_cases hloop : edge.fromId = edge.toId
      · -- A self-loop leads nowhere new.
        rw [← hloop]
        exact ih
      · exact Reachable.step ih ((h edge hloop hu).1 hmem)

/-- What `g'` reaches it reaches along edges that `g` has too. -/
theorem reachable_of (h : AgreesFrom g g' root) {v : NodeId} (hv : g'.Reachable root v) :
    g.Reachable root v := by
  induction hv with
  | refl => exact .refl
  | tail _ hstep ih =>
      obtain ⟨edge, hmem, rfl, rfl⟩ := hstep
      by_cases hloop : edge.fromId = edge.toId
      · rw [← hloop]
        exact ih
      · exact Reachable.step ih ((h edge hloop ih).2 hmem)

theorem reachable_iff (h : AgreesFrom g g' root) (v : NodeId) :
    g.Reachable root v ↔ g'.Reachable root v :=
  ⟨h.reachable, h.reachable_of⟩

/-- Agreement is symmetric, although it speaks of what `g` reaches. -/
theorem symm (h : AgreesFrom g g' root) : AgreesFrom g' g root :=
  fun edge hloop hfrom => (h edge hloop (h.reachable_of hfrom)).symm

end AgreesFrom
end Agreement
end GraphView

/-! ## One flow graph -/

namespace Sese

variable {NodeId EdgeId : Type} [LinearOrder NodeId] {g g' : GraphView NodeId EdgeId}
  {root : NodeId}

theorem reachableIds_local (h : g.AgreesFrom g' root) :
    reachableIds g root = reachableIds g' root := by
  obtain ⟨ids, hrun, hsorted, hmem⟩ := reachableIds_spec g root
  obtain ⟨ids', hrun', hsorted', hmem'⟩ := reachableIds_spec g' root
  have hperm : ids.Perm ids' := by
    refine (List.perm_ext_iff_of_nodup hsorted.nodup hsorted'.nodup).2 fun v => ?_
    calc v ∈ ids
      _ ↔ g.Reachable root v := hmem v
      _ ↔ g'.Reachable root v := h.reachable_iff v
      _ ↔ v ∈ ids' := (hmem' v).symm
  -- One set of nodes has one increasing list.
  have heq : ids = ids' := List.Perm.eq_of_pairwise
    (fun _ _ _ _ hxy hyx => absurd hxy (lt_asymm hyx)) hsorted hsorted' hperm
  rw [hrun, hrun', heq]

variable [LinearOrder EdgeId]

/-- The edges the flow graph is built from, numbered over the nodes both graphs reach. -/
theorem originalEdges_local (h : g.AgreesFrom g' root) {ids : List NodeId}
    (hsorted : ids.Pairwise (· < ·)) (hids : ∀ v, v ∈ ids ↔ g.Reachable root v) :
    originalEdges g (indexIds ids.zipIdx .empty) =
      originalEdges g' (indexIds ids.zipIdx .empty) := by
  have hids' : ∀ v, v ∈ ids ↔ g'.Reachable root v :=
    fun v => (hids v).trans (h.reachable_iff v)
  have hflow : ∀ e, IsFlowEdge g root (.original e) ↔ IsFlowEdge g' root (.original e) := by
    intro e
    constructor
    · rintro ⟨hmem, hloop, hfrom⟩
      exact ⟨(h e hloop hfrom).1 hmem, hloop, h.reachable hfrom⟩
    · rintro ⟨hmem, hloop, hfrom⟩
      exact ⟨(h.symm e hloop hfrom).1 hmem, hloop, h.reachable_of hfrom⟩
  have hnodup : ∀ view : GraphView NodeId EdgeId, view.edges.Nodup :=
    fun view => List.Nodup.of_map _ view.ids_nodup
  refine sortByKey_eq_of_perm ?_ ?_
  · refine (List.perm_ext_iff_of_nodup ((hnodup g).filter _) ((hnodup g').filter _)).2
      fun e => ?_
    calc e ∈ g.edges.filter _
      _ ↔ e ∈ originalEdges g (indexIds ids.zipIdx .empty) := mem_sortByKey.symm
      _ ↔ IsFlowEdge g root (.original e) := mem_originalEdges hsorted hids
      _ ↔ IsFlowEdge g' root (.original e) := hflow e
      _ ↔ e ∈ originalEdges g' (indexIds ids.zipIdx .empty) :=
        (mem_originalEdges hsorted hids').symm
      _ ↔ e ∈ g'.edges.filter _ := mem_sortByKey
  · intro e he f hf heq
    exact GraphView.edge_eq_of_id (List.mem_of_mem_filter he) (List.mem_of_mem_filter hf) heq

theorem buildFlowgraph_local (h : g.AgreesFrom g' root) :
    buildFlowgraph g root = buildFlowgraph g' root := by
  obtain ⟨ids, hrun, hsorted, hids⟩ := reachableIds_spec g root
  have hrun' : reachableIds g' root = .ok ids := (reachableIds_local h).symm.trans hrun
  rw [buildFlowgraph, buildFlowgraph, hrun, hrun']
  simp only [bind, Except.bind, originalEdges_local h hsorted hids]

/-- Both analyses end and give equal results on graphs that agree from the root: dead code and
self-loops change nothing, whatever order either graph is read in.  The results are the candidates
of the graph, and the selected ones. -/
theorem compute_local (h : g.AgreesFrom g' root) :
    ∃ tree cs, computeSese g root = .ok tree ∧ computeSese g' root = .ok tree ∧
      computeSeseCandidates g root = .ok cs ∧ computeSeseCandidates g' root = .ok cs ∧
      (∀ c, c ∈ cs ↔ IsCandidate g root c) ∧
      ∀ triple, triple ∈ regionTriples tree ↔
        ∃ c, IsSelected g root c ∧ candidateTriple c = triple := by
  obtain ⟨_, _, selected, htree, -, hselected, -⟩ := computeSese_spec g root
  obtain ⟨cs, hcs, hmem, -⟩ := computeSeseCandidates_spec g root
  refine ⟨_, cs, htree, ?_, hcs, ?_, hmem, ?_⟩
  · rw [← htree, computeSese, computeSese, buildFlowgraph_local h]
  · rw [← hcs, computeSeseCandidates, computeSeseCandidates, buildFlowgraph_local h]
  · intro triple
    rw [regionTriples_treeOf, List.mem_map]
    exact exists_congr fun c => and_congr_left fun _ => hselected c

/-- The edges in another order, with a self-loop at `2` and dead code at `7` that leads into it. -/
def sandwichWithDeadCode : GraphView Nat Nat :=
  .ofEdges [⟨7, 7, 2⟩, ⟨5, 4, 5⟩, ⟨1, 1, 2⟩, ⟨6, 2, 2⟩, ⟨3, 2, 3⟩, ⟨4, 3, 4⟩, ⟨0, 0, 1⟩, ⟨2, 2, 3⟩]
    (by decide)

theorem sandwich_agreesFrom : sandwich.AgreesFrom sandwichWithDeadCode 0 := by
  have hends : ∀ edge ∈ sandwich.edges, edge.toId ≤ 5 := by decide
  -- No node from 6 on is reached in the sandwich.
  have hreach : ∀ v, sandwich.Reachable 0 v → v ≤ 5 := by
    intro v hv
    induction hv with
    | refl => exact Nat.zero_le 5
    | tail _ hstep _ =>
        obtain ⟨edge, hmem, -, rfl⟩ := hstep
        exact hends edge hmem
  have hkept : ∀ edge ∈ sandwich.edges, edge ∈ sandwichWithDeadCode.edges := by decide
  have hold : ∀ edge ∈ sandwichWithDeadCode.edges, edge.fromId ≠ edge.toId → edge.fromId ≤ 5 →
      edge ∈ sandwich.edges := by decide
  intro edge hloop hfrom
  exact ⟨hkept edge, fun hmem => hold edge hmem hloop (hreach _ hfrom)⟩

theorem compute_local_sandwich :
    ∃ tree cs, computeSese sandwich 0 = .ok tree ∧ computeSese sandwichWithDeadCode 0 = .ok tree ∧
      computeSeseCandidates sandwich 0 = .ok cs ∧
      computeSeseCandidates sandwichWithDeadCode 0 = .ok cs ∧
      (∀ c, c ∈ cs ↔ IsCandidate sandwich 0 c) ∧
      ∀ triple, triple ∈ regionTriples tree ↔
        ∃ c, IsSelected sandwich 0 c ∧ candidateTriple c = triple :=
  compute_local sandwich_agreesFrom

end Sese
end Jstd
