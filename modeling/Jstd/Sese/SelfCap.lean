import Jstd.Sese.BracketRun
import Jstd.Sese.Numbers
import Jstd.Sese.Validation

/-!
# When the bracket lists are exact

On a flow graph in which every edge lies on a cycle, the loop never gives up, and its labels are the
cycle classes unless it adds a cap that leads from a node to itself.  Such a cap ends no bracket; it
only makes the tree edge into the node unlike every other edge, and that is wrong where the tree
edge has an equivalent.
-/

namespace Jstd
namespace Sese

open Foundation DepthFirstTree

variable {E : Type} {edges : List (IEdge E)} {incident : List (List Nat)} {n v : Nat}
  {dfs : VisitState} {T : DepthFirstTree (edgeGraph edges)}

/-! ## Nodes with a cap to themselves -/

/-- The edge `i`, not of the tree, joins `x` to a proper ancestor of `v`. -/
def LeadsAbove (edges : List (IEdge E)) (dfs : VisitState) (v x i : Nat) : Prop :=
  ∃ edge, edges[i]? = some edge ∧ dfs.tree.getD i false = false ∧
    (edge.fromNode = x ∨ edge.toNode = x) ∧ descends dfs v (other edge x) = true

/-- Such an edge begins at `c` or below it. -/
def Escapes (edges : List (IEdge E)) (dfs : VisitState) (v c : Nat) : Prop :=
  ∃ x i, (x = c ∨ descends dfs x c = true) ∧ LeadsAbove edges dfs v x i

/-- `hi2` of `v` is the number of `v` itself, and below `hi0`; `e` is the tree edge into `v`. -/
structure SelfCapped (edges : List (IEdge E)) (dfs : VisitState) (v e : Nat) : Prop where
  mem : v ∈ dfs.preorder
  parentEdge_eq : dfs.parentEdge.getD v none = some e
  not_leadsAbove : ∀ i, ¬ LeadsAbove edges dfs v v i
  two_children : ∃ c ∈ dfs.childrenOf v, ∃ d ∈ dfs.childrenOf v, c ≠ d
  not_both : ∀ c ∈ dfs.childrenOf v, ∀ d ∈ dfs.childrenOf v, c ≠ d →
    Escapes edges dfs v c → ¬ Escapes edges dfs v d

section

variable (hT : IsSearchTree edges incident n dfs T) (hloop : Loopless edges)
include hT hloop

theorem leadsAbove_iff {x i : Nat} (hvx : T.Anc v x) :
    LeadsAbove edges dfs v x i ↔
      T.IsBack i ∧ T.low i = x ∧ T.number (T.up i) < T.number v := by
  constructor
  · rintro ⟨edge, hedge, htree, hends, hdesc⟩
    have hi : (edgeGraph edges).IsEdge i := edgeGraph_isEdge hedge
    have hanc := anc_up_low (T := T) hi
    have hback : T.IsBack i := by
      refine ⟨hi, ?_⟩
      rw [← hT.tree_iff, htree]
      exact Bool.false_ne_true
    -- The edge has `x` at its lower end or at its upper one.
    rcases hloop.ends (T := T) hedge hends with ⟨hlow, hother⟩ | ⟨hup, hother⟩
    · rw [hother, hT.descends_iff hanc.left_mem hvx.left_mem] at hdesc
      exact ⟨hback, hlow, hdesc.2.lt_of_ne hdesc.1.symm⟩
    · -- The other end is below `x`, so it is not above `v`.
      rw [hother, hT.descends_iff hanc.right_mem hvx.left_mem] at hdesc
      have hlt := hloop.number_up_lt (T := T) hi
      have hle := hdesc.2.le.trans hvx.le
      rw [hup] at hlt
      exact absurd hle (Nat.not_le_of_lt hlt)
  · rintro ⟨hback, rfl, hlt⟩
    obtain ⟨edge, hedge⟩ := exists_edge hback.isEdge
    have hanc := anc_up_low (T := T) hback.isEdge
    refine ⟨edge, hedge, ?_, ends_of_low_up hedge (.inl rfl), ?_⟩
    · rw [Bool.eq_false_iff, ne_eq, hT.tree_iff]
      exact hback.not_tree
    · have hother : other edge (T.low i) = T.up i := by
        rcases hloop.ends (T := T) hedge (ends_of_low_up hedge (.inl rfl)) with
          ⟨-, hother⟩ | ⟨hup, -⟩
        · exact hother
        · exact absurd hup (hloop.up_ne_low hedge)
      rw [hother, hT.descends_iff hanc.left_mem hvx.left_mem]
      refine ⟨?_, hanc.of_le hvx hlt.le⟩
      rintro rfl
      exact Nat.lt_irrefl _ hlt

theorem escapes_iff {c : Nat} (hc : T.IsChild v c) :
    Escapes edges dfs v c ↔ ∃ j < T.number v, T.Reaches c j := by
  constructor
  · rintro ⟨x, i, hx, habove⟩
    have hcx : T.Anc c x := by
      rcases hx with rfl | hx
      · exact .refl hc.mem
      · obtain ⟨edge, hedge, -, hends, -⟩ := habove
        have hmem : T.Mem x := by
          rcases hends with rfl | rfl
          · exact edgeGraph_src hedge ▸ T.src_mem (edgeGraph_isEdge hedge)
          · exact edgeGraph_dst hedge ▸ T.dst_mem (edgeGraph_isEdge hedge)
        exact ((hT.descends_iff hc.mem hmem).1 hx).2
    obtain ⟨hback, rfl, hlt⟩ := (leadsAbove_iff hT hloop (hc.anc.trans hcx)).1 habove
    exact ⟨_, hlt, i, hback, hcx, Nat.le_refl _⟩
  · rintro ⟨j, hj, i, hback, hanc, hle⟩
    refine ⟨T.low i, i, ?_, ?_⟩
    · by_cases heq : T.low i = c
      · exact .inl heq
      · exact .inr ((hT.descends_iff hc.mem hanc.right_mem).2 ⟨heq, hanc⟩)
    · exact (leadsAbove_iff hT hloop (hc.anc.trans hanc)).2 ⟨hback, rfl, hle.trans_lt hj⟩

/-- The caps that the names suffer from. -/
theorem selfCapped_iff (hcyclic : (edgeGraph edges).Cyclic) {e : Nat} :
    SelfCapped edges dfs v e ↔ T.Spurious v ∧ T.treeEdge v = e := by
  constructor
  · intro h
    have hmem : T.Mem v := hT.mem_iff.2 h.mem
    have hroot : v ≠ T.root := by
      rintro rfl
      have hparent := h.parentEdge_eq
      rw [hT.parentEdge_root] at hparent
      cases hparent
    have hparent := h.parentEdge_eq
    rw [hT.parentEdge_eq hmem hroot, Option.some.injEq] at hparent
    refine ⟨?_, hparent⟩
    have htwice : T.ReachesTwice v (T.number v) := by
      obtain ⟨c, hc, d, hd, hne⟩ := h.two_children
      have hc := hT.mem_childrenOf.1 hc
      have hd := hT.mem_childrenOf.1 hd
      exact ⟨c, d, hc, hd, hne, hc.reaches hcyclic, hd.reaches hcyclic⟩
    -- Were the cap to lead above the node, two children would lead above it.
    have heq : T.capNumber v = T.number v := by
      refine Nat.le_antisymm (capNumber_le htwice) (Nat.le_of_not_lt fun hlt => ?_)
      obtain ⟨c, d, hc, hd, hne, hcj, hdj⟩ := capNumber_spec ⟨_, htwice⟩
      exact h.not_both c (hT.mem_childrenOf.2 hc) d (hT.mem_childrenOf.2 hd) hne
        ((escapes_iff hT hloop hc).2 ⟨_, hlt, hcj⟩) ((escapes_iff hT hloop hd).2 ⟨_, hlt, hdj⟩)
    refine ⟨hmem, hroot, ⟨⟨_, htwice⟩, ?_⟩, heq⟩
    rintro ⟨i, hback, hlow, -⟩
    refine h.not_leadsAbove i ((leadsAbove_iff hT hloop (.refl hmem)).2 ⟨hback, hlow, ?_⟩)
    rw [← hlow]
    exact hloop.number_up_lt hback.isEdge
  · rintro ⟨hs, rfl⟩
    constructor
    · exact hT.mem_iff.1 hs.mem
    · exact hT.parentEdge_eq hs.mem hs.ne_root
    · intro i habove
      obtain ⟨hback, hlow, hlt⟩ := (leadsAbove_iff hT hloop (.refl hs.mem)).1 habove
      refine hs.hasCap.not_here ⟨i, hback, hlow, ?_⟩
      rw [hs.capNumber_eq]
      exact hlt.le
    · obtain ⟨j, c, d, hc, hd, hne, -⟩ := hs.hasCap.twice
      exact ⟨c, hT.mem_childrenOf.2 hc, d, hT.mem_childrenOf.2 hd, hne⟩
    · intro c hc d hd hne hcv hdv
      have hc := hT.mem_childrenOf.1 hc
      have hd := hT.mem_childrenOf.1 hd
      obtain ⟨i, hi, hci⟩ := (escapes_iff hT hloop hc).1 hcv
      obtain ⟨j, hj, hdj⟩ := (escapes_iff hT hloop hd).1 hdv
      -- Two such children would give a cap that leads above the node.
      have htwice : T.ReachesTwice v (max i j) :=
        ⟨c, d, hc, hd, hne, hci.mono (Nat.le_max_left _ _), hdj.mono (Nat.le_max_right _ _)⟩
      have hlt : T.capNumber v < T.number v := (capNumber_le htwice).trans_lt (Nat.max_lt.2 ⟨hi, hj⟩)
      rw [hs.capNumber_eq] at hlt
      exact Nat.lt_irrefl _ hlt

end

/-! ## Flow graphs -/

section

variable {NodeId EdgeId : Type} [LinearOrder NodeId] [LinearOrder EdgeId]
  {g : GraphView NodeId EdgeId} {root : NodeId} {fg : Flowgraph NodeId EdgeId}
  {originals : List (GraphEdge NodeId EdgeId)} {leaving : List NodeId}

omit [LinearOrder EdgeId] in
theorem IsFlowEdge.src_ne_dst {f : FlowEdge NodeId EdgeId} (h : IsFlowEdge g root f) :
    f.src ≠ f.dst root := by
  cases f with
  | original edge => exact fun heq => h.2.1 (Option.some.inj heq)
  | leave v => exact Option.some_ne_none v
  | back => exact (Option.some_ne_none root).symm

theorem Numbers.loopless (h : Numbers g root fg originals leaving) : Loopless fg.edges := by
  intro edge hedge heq
  rw [h.edges] at hedge
  obtain ⟨f, hf, rfl⟩ := List.mem_map.1 hedge
  have hf := h.mem_names.1 hf
  refine hf.src_ne_dst ?_
  rw [← getElem?_vertexNumber (h.src_mem hf), ← getElem?_vertexNumber (h.dst_mem hf)]
  exact congrArg (fg.ids[·]?) heq

theorem Numbers.entry_lt_size (h : Numbers g root fg originals leaving) : fg.entry < fg.size :=
  Nat.lt_succ_of_lt h.entry_lt

theorem Numbers.reached (h : Numbers g root fg originals leaving) {i : Nat}
    (hi : (edgeGraph fg.edges).IsEdge i) :
    (edgeGraph fg.edges).Connected fg.entry ((edgeGraph fg.edges).src i) := by
  have hR := h.isRenaming
  have hwalk : (augmented g root).Walk (fun _ => True) fg.ids[fg.entry]?
      fg.ids[(edgeGraph fg.edges).src i]? := by
    rw [h.getElem?_entry, ← hR.src i hi]
    exact (augmented_flow g root).reached _ (hR.isEdge i hi)
  exact (hR.walk_iff (fun _ _ => Iff.rfl) h.entry_lt_size (hR.src_live i hi)).2 hwalk

/-- The labels of the bracket lists are the cycle classes exactly when, wherever a cap leads from a
node to itself, the tree edge into the node is equivalent to no other edge. -/
theorem bracketClasses_exact_iff (hbuild : buildFlowgraph g root = .ok fg)
    (hcycle : ∀ a < fg.edges.length, ∃ p, (edgeGraph fg.edges).IsClosedWalk p ∧ a ∈ p) :
    ∃ dfs classes, depthFirst fg.edges fg.size fg.entry = .ok dfs ∧
      bracketClasses fg.edges fg.size fg.entry = .ok (some classes) ∧
      (Exact fg.edges classes ↔
        ∀ v e, SelfCapped fg.edges dfs v e → ∀ j < fg.edges.length, j ≠ e →
          cycleEquivalent fg.edges fg.size e j = .ok false) := by
  obtain ⟨fg', originals, leaving, hbuild', h⟩ := buildFlowgraph_spec g root
  rw [hbuild, Except.ok.injEq] at hbuild'
  subst hbuild'
  have hcyclic : (edgeGraph fg.edges).Cyclic := by
    intro i hi
    obtain ⟨p, hp, hmem⟩ := hcycle i hi
    exact (Multigraph.exists_closedWalk_iff hi trivial).1 ⟨p, hp, hmem, fun _ _ => trivial⟩
  obtain ⟨dfs, incident, T, classes, hdfs, hT, hlists, hrun, hkeys⟩ :=
    bracketClasses_keys h.inBounds h.entry_lt_size h.loopless hcyclic fun i => h.reached
  refine ⟨dfs, classes, hdfs, hrun, ?_⟩
  rw [exact_iff]
  -- The labels are equal where the keys are; the keys fail at spurious nodes only.
  refine Iff.trans ?_ ((key_exact_iff hcyclic hlists).trans ?_)
  · constructor
    · intro hexact i j hi hj hij
      rw [← hkeys i hi j hj]
      exact hexact i hi j hj hij
    · intro hexact i hi j hj hij
      rw [hkeys i hi j hj]
      exact hexact i j hi hj hij
  · have halone : ∀ e j, (edgeGraph fg.edges).IsEdge e → (edgeGraph fg.edges).IsEdge j →
        (cycleEquivalent fg.edges fg.size e j = .ok false ↔
          ¬ (edgeGraph fg.edges).CycleEquivalent e j) := by
      classical
      intro e j he hj
      rw [cycleEquivalent_eq h.inBounds he hj, Except.ok.injEq, decide_eq_false_iff_not]
    constructor
    · intro hall v e hself j hj hne
      obtain ⟨hs, rfl⟩ := (selfCapped_iff hT h.loopless hcyclic).1 hself
      exact (halone _ j (T.treeEdge_isEdge hs.mem hs.ne_root) hj).2 (hall v hs j hj hne)
    · intro hall v hs j hj hne
      have hself := (selfCapped_iff hT h.loopless hcyclic).2 ⟨hs, rfl⟩
      exact (halone _ j (T.treeEdge_isEdge hs.mem hs.ne_root) hj).1 (hall v _ hself j hj hne)

end

/-- The graph of `loop_body_is_a_canonical_region`: `0 → 1 → 2 → 1 → 3 → 4`. -/
def loopBody : GraphView Nat Nat :=
  .ofEdges [⟨0, 0, 1⟩, ⟨1, 1, 2⟩, ⟨2, 2, 1⟩, ⟨3, 1, 3⟩, ⟨4, 3, 4⟩] (by decide)

def loopBodyFlow : Flowgraph Nat Nat where
  ids := [0, 1, 2, 3, 4]
  edges := [⟨0, 1, some 0⟩, ⟨1, 2, some 1⟩, ⟨2, 1, some 2⟩, ⟨1, 3, some 3⟩, ⟨3, 4, some 4⟩,
    ⟨4, 5, none⟩, ⟨5, 0, none⟩]
  originalCount := 5
  entry := 0

theorem loopBody_build : buildFlowgraph loopBody 0 = .ok loopBodyFlow := by
  decide +kernel

/-- One closed walk goes through every edge. -/
theorem loopBody_cycle : ∀ a < loopBodyFlow.edges.length,
    ∃ p, (edgeGraph loopBodyFlow.edges).IsClosedWalk p ∧ a ∈ p := by
  intro a ha
  refine ⟨[0, 1, 2, 3, 4, 5, 6], ⟨0, ?_⟩, ?_⟩
  · simp [Multigraph.Follows, edgeGraph, loopBodyFlow]
  · simp only [loopBodyFlow, List.length_cons, List.length_nil] at ha
    simp only [List.mem_cons, List.not_mem_nil]
    omega

theorem bracketClasses_exact_iff_loopBody :
    ∃ dfs classes, depthFirst loopBodyFlow.edges loopBodyFlow.size loopBodyFlow.entry = .ok dfs ∧
      bracketClasses loopBodyFlow.edges loopBodyFlow.size loopBodyFlow.entry = .ok (some classes) ∧
      (Exact loopBodyFlow.edges classes ↔
        ∀ v e, SelfCapped loopBodyFlow.edges dfs v e → ∀ j < loopBodyFlow.edges.length, j ≠ e →
          cycleEquivalent loopBodyFlow.edges loopBodyFlow.size e j = .ok false) :=
  bracketClasses_exact_iff loopBody_build loopBody_cycle

theorem loopBody_inBounds : InBounds loopBodyFlow.edges loopBodyFlow.size := by
  unfold InBounds
  decide

/-- Node 1 has the children 2 and 3, and the brackets of 2 end at it: its cap leads to itself.  The
edges `0 → 1` and `1 → 3` are equivalent, and the cap tells them apart. -/
theorem loopBody_not_exact :
    buildFlowgraph loopBody 0 = .ok loopBodyFlow ∧
      (∀ a < loopBodyFlow.edges.length,
        ∃ p, (edgeGraph loopBodyFlow.edges).IsClosedWalk p ∧ a ∈ p) ∧
      bracketClasses loopBodyFlow.edges loopBodyFlow.size loopBodyFlow.entry =
        .ok (some [3, 2, 2, 1, 1, 1, 1]) ∧
      ¬ Exact loopBodyFlow.edges [3, 2, 2, 1, 1, 1, 1] := by
  refine ⟨loopBody_build, loopBody_cycle, by decide +kernel, fun hexact => ?_⟩
  have hlabels := (exact_iff_cycleEquivalent loopBody_inBounds).1 hexact 0 (by decide) 3 (by decide)
    (by decide)
  have htrue : cycleEquivalent loopBodyFlow.edges loopBodyFlow.size 0 3 = .ok true := by
    decide +kernel
  rw [htrue] at hlabels
  cases hlabels

end Sese
end Jstd
