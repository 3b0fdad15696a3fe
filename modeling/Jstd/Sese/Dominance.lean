import Jstd.Dominator.Tree
import Jstd.PostDominator.Duality
import Jstd.Sese.Correctness

/-!
# Regions and dominance of nodes

The regions are found from classes of edges; the dominator tree and the post-dominator sets of the
same graph are about nodes, and are computed elsewhere, by other algorithms.  They fit together:
both ends of the entry edge dominate every node of a region, and both ends of the exit edge
post-dominate it.
-/

namespace Jstd

open Foundation

/-- The successor relation of the graph. -/
def GraphView.cfg {NodeId EdgeId : Type} [DecidableEq NodeId] (g : GraphView NodeId EdgeId) :
    Cfg NodeId where
  successors := g.children

namespace Sese

open Dominator PostDominator

variable {NodeId EdgeId : Type} [LinearOrder NodeId] {g : GraphView NodeId EdgeId}
  {root u v n d p : NodeId} {e f : GraphEdge NodeId EdgeId} {nodeSet exitSet : Finset NodeId}

omit [LinearOrder NodeId] in
theorem cfg_edge_eq [DecidableEq NodeId] (g : GraphView NodeId EdgeId) : g.cfg.Edge = g.Edge :=
  funext fun _ => funext fun _ => propext g.mem_children

theorem finite_reachable (g : GraphView NodeId EdgeId) (root : NodeId) :
    {n | g.cfg.Reachable root n}.Finite := by
  obtain ⟨reach, hreach⟩ := exists_reach g root
  refine (Finset.finite_toSet reach).subset fun n hn => (hreach n).2 ?_
  change Reaches g.cfg.Edge root n at hn
  rwa [cfg_edge_eq] at hn

/-! ## Walks of nodes and walks of edges -/

/-- A walk that passes by an end of an edge does not use the edge. -/
theorem avoiding_of_walk (hu : g.Reachable root u) (hne : u ≠ d)
    (hd : d = e.fromId ∨ d = e.toId)
    (hwalk : Relation.ReflTransGen (fun x y => g.Edge x y ∧ y ≠ d) u v) :
    (augmented g root).Avoiding (.original e) (some u) (some v) := by
  have main : v ≠ d ∧ g.Reachable root v ∧
      (augmented g root).Avoiding (.original e) (some u) (some v) := by
    induction hwalk with
    | refl => exact ⟨hne, hu, .refl _⟩
    | tail _ hstep ih =>
        obtain ⟨hsrc, hreach, hprev⟩ := ih
        obtain ⟨⟨edge, hmem, rfl, rfl⟩, hdst⟩ := hstep
        refine ⟨hdst, hreach.step hmem, ?_⟩
        -- A self-loop is no edge of the augmented graph, and none is needed.
        by_cases hloop : edge.fromId = edge.toId
        · rwa [← hloop]
        · have hedge : (augmented g root).IsEdge (.original edge) := ⟨hmem, hloop, hreach⟩
          refine hprev.trans (.edge hedge ?_)
          intro heq
          obtain rfl := FlowEdge.original.inj heq
          rcases hd with rfl | rfl
          · exact hsrc rfl
          · exact hdst rfl
  exact main.2.2

section

variable (hcand : (augmented g root).IsCandidate (some root) none (.original e) (.original f))
  (hn : some n ∈ (augmented g root).region (.original e) (.original f))

include hcand hn

theorem dominates_of_region (hd : d = e.fromId ∨ d = e.toId) : Dominates g.Edge root d n := by
  rw [Foundation.dominates_iff]
  rintro ⟨hne, hwalk⟩
  have haround := avoiding_of_walk (.refl : g.Reachable root root) hne hd hwalk
  exact hcand.dominates (Multigraph.Walk.trans haround hn.2)

theorem reachable_of_region : g.Reachable root n :=
  connected_iff.1 (hcand.reached (augmented_flow g root) hn)

theorem postDominates_of_region (hreach : ∀ n, n ∈ nodeSet ↔ g.Reachable root n)
    (hexits : ∀ n, n ∈ exitSet ↔ IsLeaving g root n) (hp : p = f.fromId ∨ p = f.toId) :
    PostDominates (Within g.cfg nodeSet) (· ∈ exitSet) p n := by
  have hroot := reachable_of_region hcand hn
  intro x l hx hl
  by_contra hmem
  obtain ⟨hnp, hwalk⟩ := restricted_of_path (P := (· ≠ p)) hl (by
    rintro y hy rfl
    exact hmem hy)
  have hwalk' : Relation.ReflTransGen (fun a b => g.Edge a b ∧ b ≠ p) n x := by
    refine Relation.ReflTransGen.mono (fun a b hab => ⟨?_, hab.2⟩) _ _ hwalk
    exact g.mem_children.1 hab.1.1
  have hreached : g.Reachable root x :=
    Relation.ReflTransGen.trans hroot
      (Relation.ReflTransGen.mono (fun a b hab => hab.1) _ _ hwalk')
  -- Where the walk stops, an edge leads to the synthetic exit.
  have hleaving : IsLeaving g root x := by
    rcases hx with hx | hdead
    · exact (hexits x).1 hx
    · refine .inl ⟨hreached, ?_⟩
      rintro edge hedge rfl
      refine absurd ⟨?_, (hreach _).2 (hreached.step hedge)⟩ (hdead edge.toId)
      exact g.mem_children.2 ⟨edge, hedge, rfl, rfl⟩
  have hleave : (augmented g root).IsEdge (.leave x) := hleaving
  have hlast : (augmented g root).Avoiding (.original f) (some x) none :=
    .edge hleave (by simp)
  have hout := (avoiding_of_walk hroot hnp hp hwalk').trans hlast
  exact hcand.postdominates (Multigraph.Walk.trans hn.1 hout)

end

/-! ## The three analyses together -/

/-- What the dominator tree and the post-dominator sets say about a region with entry edge `e` and
exit edge `f`. -/
structure Enclosed (fuel : Nat) (dominators : DominatorTree NodeId)
    (pdom : HashMap NodeId (Finset NodeId)) (e f : GraphEdge NodeId EdgeId)
    (nodes : List NodeId) : Prop where
  outside : e.fromId ∉ nodes ∧ f.toId ∉ nodes
  inside : e.toId ∈ nodes ∧ f.fromId ∈ nodes
  dominated : ∀ n ∈ nodes, ∀ order : HashOrder NodeId,
    dominators.dominates fuel order e.fromId n = .ok true ∧
      dominators.dominates fuel order e.toId n = .ok true
  postdominated : ∀ n ∈ nodes, ∃ set, pdom.get? n = some set ∧ f.fromId ∈ set ∧ f.toId ∈ set

/-- For every candidate, and for every region of the tree but region 0, `compute_dominators` and
`compute_postdominators` find the ends of its edges around all of its nodes. -/
theorem computeSese_enclosed [LinearOrder EdgeId] (g : GraphView NodeId EdgeId) (root : NodeId)
    (nodes : List NodeId) (nodeSet exitSet : Finset NodeId)
    (hnodes : ∀ n, n ∈ nodes ↔ n ∈ nodeSet) (hreach : ∀ n, n ∈ nodeSet ↔ g.Reachable root n)
    (hexits : ∀ n, n ∈ exitSet ↔ IsLeaving g root n) :
    ∃ cs tree, computeSeseCandidates g root = .ok cs ∧ computeSese g root = .ok tree ∧
      ∃ enough, ∀ fuel, enough ≤ fuel → ∃ dominators pdom,
        computeDominators fuel g.cfg root = .ok dominators ∧
        computePostdominators fuel g.cfg nodes nodeSet exitSet = .ok pdom ∧
        (∀ c ∈ cs, ∃ e ∈ g.edges, ∃ f ∈ g.edges, c.entryEdge = e.id ∧ c.exitEdge = f.id ∧
          Enclosed fuel dominators pdom e f c.containedNodes) ∧
        ∀ region ∈ tree.regions.tail, ∃ e ∈ g.edges, ∃ f ∈ g.edges,
          region.entryEdge = some e.id ∧ region.exitEdge = some f.id ∧
          Enclosed fuel dominators pdom e f region.containedNodes := by
  obtain ⟨cs, hcs, hmem, -⟩ := computeSeseCandidates_spec g root
  obtain ⟨ids, sets, selected, htree, -, hselected, -⟩ := computeSese_spec g root
  have hfinite := finite_reachable g root
  obtain ⟨enough, h⟩ := computeDominators_spec g.cfg root hfinite
  obtain ⟨enough', h'⟩ := computePostdominators_exact g.cfg nodes nodeSet exitSet hnodes
  refine ⟨cs, _, hcs, htree,
    enough + enough' + {n | g.cfg.Reachable root n}.ncard + 1, ?_⟩
  intro fuel hfuel
  obtain ⟨dominators, hdom, hcomputed⟩ := h fuel (by omega)
  obtain ⟨pdom, hpdom, hexact⟩ := h' fuel (by omega)
  have hdominates : ∀ {d n : NodeId}, g.Reachable root n → Dominates g.Edge root d n →
      ∀ order : HashOrder NodeId, dominators.dominates fuel order d n = .ok true := by
    intro d n hn hd order
    obtain ⟨answer, hanswer, hiff⟩ :=
      hcomputed.dominates_eq hfinite (by omega : _ < fuel) order d n
    rw [Cfg.Reachable, cfg_edge_eq] at hiff
    rw [hanswer, hiff.2 ⟨hn, hd⟩]
  -- A region of the tree is a candidate, so candidates are all there is to look at.
  have hall : ∀ c, IsCandidate g root c → ∃ e ∈ g.edges, ∃ f ∈ g.edges,
      c.entryEdge = e.id ∧ c.exitEdge = f.id ∧
        Enclosed fuel dominators pdom e f c.containedNodes := by
    rintro c ⟨e, f, he, hf, hcand, -, hregion⟩
    have hentry : IsFlowEdge g root (.original e) := hcand.entry_inner.isEdge
    have hexit : IsFlowEdge g root (.original f) := hcand.exit_inner.isEdge
    refine ⟨e, hentry.1, f, hexit.1, he.symm, hf.symm, ?_, ?_, ?_, ?_⟩
    · rw [hregion, hregion]
      exact ⟨hcand.entry_src, hcand.exit_dst⟩
    · rw [hregion, hregion]
      exact ⟨hcand.entry_dst, hcand.exit_src⟩
    · intro n hn order
      rw [hregion] at hn
      have hreached := reachable_of_region hcand hn
      exact ⟨hdominates hreached (dominates_of_region hcand hn (.inl rfl)) order,
        hdominates hreached (dominates_of_region hcand hn (.inr rfl)) order⟩
    · intro n hn
      rw [hregion] at hn
      have hkey : n ∈ pdom.keys :=
        hexact.keys ▸ (hreach n).2 (reachable_of_region hcand hn)
      obtain ⟨set, hset⟩ := HashMap.exists_of_mem_keys hkey
      have hsrc : f.fromId ∈ nodeSet := (hreach _).2 hexit.2.2
      have hdst : f.toId ∈ nodeSet := (hreach _).2 (hexit.2.2.step hexit.1)
      have hmem := hexact.mem_iff n set hset
      exact ⟨set, hset,
        (hmem _).2 ⟨hsrc, postDominates_of_region hcand hn hreach hexits (.inl rfl)⟩,
        (hmem _).2 ⟨hdst, postDominates_of_region hcand hn hreach hexits (.inr rfl)⟩⟩
  refine ⟨dominators, pdom, hdom, hpdom, fun c hc => hall c ((hmem c).1 hc), ?_⟩
  intro region hregion
  have htriple : (region.entryEdge, region.exitEdge, region.containedNodes) ∈
      regionTriples (treeOf ids sets selected) := List.mem_map_of_mem hregion
  rw [regionTriples_treeOf] at htriple
  obtain ⟨c, hc, heq⟩ := List.mem_map.1 htriple
  obtain ⟨hentry, hrest⟩ := Prod.mk.inj heq
  obtain ⟨hexit, hcontained⟩ := Prod.mk.inj hrest
  obtain ⟨e, he, f, hf, hce, hcf, henclosed⟩ := hall c ((hselected c).1 hc).candidate
  refine ⟨e, he, f, hf, by rw [← hentry, hce], by rw [← hexit, hcf], ?_⟩
  rw [← hcontained]
  exact henclosed

/-- The nodes of the sandwich are what can be reached in it. -/
theorem sandwich_reachable (n : Nat) :
    n ∈ ({0, 1, 2, 3, 4, 5} : Finset Nat) ↔ sandwich.Reachable 0 n := by
  have hnext : ∀ u < 5, ∃ edge ∈ sandwich.edges, edge.fromId = u ∧ edge.toId = u + 1 := by decide
  constructor
  · intro hn
    have hbound : ∀ m ∈ ({0, 1, 2, 3, 4, 5} : Finset Nat), m ≤ 5 := by decide
    have hle := hbound n hn
    clear hn
    induction n with
    | zero => exact .refl
    | succ n ih => exact (ih (Nat.le_of_succ_le hle)).tail (hnext n hle)
  · intro h
    have hends : ∀ edge ∈ sandwich.edges, edge.toId ∈ ({0, 1, 2, 3, 4, 5} : Finset Nat) := by
      decide
    induction h with
    | refl => decide
    | tail _ hstep _ =>
        obtain ⟨edge, hmem, -, rfl⟩ := hstep
        exact hends edge hmem

theorem computeSese_enclosed_sandwich :
    ∃ cs tree, computeSeseCandidates sandwich 0 = .ok cs ∧ computeSese sandwich 0 = .ok tree ∧
      ∃ enough, ∀ fuel, enough ≤ fuel → ∃ dominators pdom,
        computeDominators fuel sandwich.cfg 0 = .ok dominators ∧
        computePostdominators fuel sandwich.cfg [5, 0, 1, 3, 2, 4] {0, 1, 2, 3, 4, 5} {5} =
          .ok pdom ∧
        (∀ c ∈ cs, ∃ e ∈ sandwich.edges, ∃ f ∈ sandwich.edges, c.entryEdge = e.id ∧
          c.exitEdge = f.id ∧ Enclosed fuel dominators pdom e f c.containedNodes) ∧
        ∀ region ∈ tree.regions.tail, ∃ e ∈ sandwich.edges, ∃ f ∈ sandwich.edges,
          region.entryEdge = some e.id ∧ region.exitEdge = some f.id ∧
          Enclosed fuel dominators pdom e f region.containedNodes := by
  refine computeSese_enclosed sandwich 0 [5, 0, 1, 3, 2, 4] {0, 1, 2, 3, 4, 5} {5} ?_
    sandwich_reachable ?_
  · intro n
    simp
    tauto
  · -- Node 5 is the only one that no edge leaves.
    have hleaves : ∀ n ∈ ({0, 1, 2, 3, 4, 5} : Finset Nat), n ≠ 5 →
        ∃ edge ∈ sandwich.edges, edge.fromId = n ∧ edge.fromId ≠ edge.toId := by decide
    have hlast : sandwich.Reachable 0 5 := (sandwich_reachable 5).1 (by decide)
    intro n
    rw [Finset.mem_singleton]
    constructor
    · rintro rfl
      exact .inl ⟨hlast, by decide⟩
    · rintro (⟨hn, hsink⟩ | ⟨hnone, -, -⟩)
      · by_contra hne
        obtain ⟨edge, hmem, hfrom, hloop⟩ := hleaves n ((sandwich_reachable n).2 hn) hne
        exact hloop (hfrom.trans (hsink edge hmem hfrom).symm)
      · exact absurd ⟨hlast, by decide⟩ (hnone 5)

end Sese
end Jstd
