import Jstd.Sese.DirectClasses
import Jstd.Sese.Numbers

/-!
# The candidates

Both loops over pairs of edges collect the `boundaries` of the flow graph: the pairs that satisfy
`Multigraph.IsCandidate`, each with the nodes between its edges.  In terms of the graph itself these
are the candidates of `IsCandidate`, each listed once.
-/

namespace Jstd
namespace Sese

open Foundation

variable {NodeId EdgeId : Type} [LinearOrder NodeId] [LinearOrder EdgeId]

/-! ## The test of one pair -/

/-- The classes tell apart the edges that are not cycle equivalent. -/
structure Separates (edges : List (IEdge EdgeId)) (classes : List Nat) : Prop where
  length : classes.length = edges.length
  eq_iff : ∀ i < edges.length, ∀ j < edges.length, i ≠ j →
    (classes.getD i 0 = classes.getD j 0 ↔ (edgeGraph edges).CycleEquivalent i j)
  ne_zero : ∀ i < edges.length, classes.getD i 0 ≠ 0

open Classical in
/-- The numbers of the nodes between two edges. -/
noncomputable def between (fg : Flowgraph NodeId EdgeId) (a b : Nat) : List Nat :=
  (List.range fg.ids.length).filter fun v => v ∈ (edgeGraph fg.edges).region a b

/-- The pair is a boundary. -/
abbrev IsBoundary (fg : Flowgraph NodeId EdgeId) (a b : Nat) : Prop :=
  (edgeGraph fg.edges).IsCandidate fg.entry fg.syntheticExit a b

variable {g : GraphView NodeId EdgeId} {root : NodeId} {fg : Flowgraph NodeId EdgeId}
  {originals : List (GraphEdge NodeId EdgeId)} {leaving : List NodeId}

theorem Numbers.separates (h : Numbers g root fg originals leaving) :
    ∃ classes, jppCycleClasses fg.edges fg.size fg.entry = .ok classes ∧
      Separates fg.edges classes := by
  obtain ⟨classes, hrun, hlen, hiff, hne⟩ := jppCycleClasses_spec h.inBounds
    (Nat.lt_succ_of_lt h.entry_lt)
  exact ⟨classes, hrun, hlen, hiff, hne h.exists_cycle⟩

omit [LinearOrder NodeId] [LinearOrder EdgeId] in
/-- Nothing between two edges is the synthetic exit, so all of it is listed. -/
theorem mem_between (hbounds : InBounds fg.edges fg.size) {a b : Nat}
    (ha : (edgeGraph fg.edges).IsEdge a)
    (hpost : ¬ (edgeGraph fg.edges).Avoiding b ((edgeGraph fg.edges).dst a) fg.syntheticExit)
    {v : Nat} : v ∈ between fg a b ↔ v ∈ (edgeGraph fg.edges).region a b := by
  classical
  rw [between, List.mem_filter, decide_eq_true_eq, List.mem_range, and_iff_right_iff_imp]
  intro hv
  have hlt : v < fg.size := hv.1.stays (S := {v | v < fg.size}) (hbounds.dst_lt ha)
    fun i hi _ _ => hbounds.dst_lt hi
  refine lt_of_le_of_ne (Nat.le_of_lt_succ hlt) ?_
  rintro rfl
  exact hpost hv.1

omit [LinearOrder NodeId] [LinearOrder EdgeId] in
theorem regionNodes_eq_between (hbounds : InBounds fg.edges fg.size) {a b : Nat}
    (ha : (edgeGraph fg.edges).IsEdge a) (hb : (edgeGraph fg.edges).IsEdge b) :
    regionNodes fg.edges fg.size a b = .ok (between fg a b) := by
  rw [regionNodes_eq hbounds ha hb, between]
  refine congrArg Except.ok (List.filter_congr fun v _ => ?_)
  exact decide_eq_decide.2 Iff.rfl

omit [LinearOrder NodeId] [LinearOrder EdgeId] in
open Classical in
theorem regionBetween_eq (hbounds : InBounds fg.edges fg.size) (hentry : fg.entry < fg.size)
    {classes : List Nat} (hclasses : Separates fg.edges classes) {a b : Nat}
    (ha : (edgeGraph fg.edges).Inner fg.syntheticExit a)
    (hb : (edgeGraph fg.edges).Inner fg.syntheticExit b) :
    regionBetween fg classes a b =
      .ok (if IsBoundary fg a b then some (a, b, between fg a b) else none) := by
  rw [regionBetween]
  -- The checks in the order in which the function makes them.
  by_cases hab : a = b
  · rw [if_pos hab, if_neg fun h : IsBoundary fg a b => h.ne hab]
    rfl
  · rw [if_neg hab, edgeDominates_eq hbounds hentry hb.isEdge]
    by_cases hdom : (edgeGraph fg.edges).Avoiding a fg.entry ((edgeGraph fg.edges).src b)
    · rw [if_neg fun h : IsBoundary fg a b => h.dominates hdom, decide_eq_false (not_not.2 hdom)]
      rfl
    · rw [decide_eq_true hdom]
      show (edgePostdominates fg.edges fg.size fg.syntheticExit b a >>= _) = _
      rw [edgePostdominates_eq hbounds (Nat.lt_succ_self fg.syntheticExit) ha.isEdge]
      by_cases hpost : (edgeGraph fg.edges).Avoiding b ((edgeGraph fg.edges).dst a)
          fg.syntheticExit
      · rw [if_neg fun h : IsBoundary fg a b => h.postdominates hpost,
          decide_eq_false (not_not.2 hpost)]
        rfl
      · rw [decide_eq_true hpost]
        show (index classes a >>= _) = _
        rw [index_of_lt (hclasses.length.symm ▸ ha.isEdge) 0]
        show (if classes.getD a 0 = 0 then _ else (index classes b >>= _)) = _
        rw [if_neg (hclasses.ne_zero a ha.isEdge),
          index_of_lt (hclasses.length.symm ▸ hb.isEdge) 0]
        show (if classes.getD a 0 ≠ classes.getD b 0 then _ else _) = _
        by_cases hclass : (edgeGraph fg.edges).CycleEquivalent a b
        · rw [if_neg (not_not.2 ((hclasses.eq_iff a ha.isEdge b hb.isEdge hab).2 hclass)),
            regionNodes_eq_between hbounds ha.isEdge hb.isEdge]
          have hbetween := fun v => mem_between hbounds ha.isEdge hpost (v := v)
          show Except.ok (if (between fg a b).isEmpty then none
            else some (a, b, between fg a b)) = _
          by_cases hempty : between fg a b = []
          · rw [if_pos (List.isEmpty_iff.2 hempty), if_neg]
            intro h
            obtain ⟨v, hv⟩ := Multigraph.IsCandidate.nonempty h
            rw [← hbetween, hempty] at hv
            exact List.not_mem_nil hv
          · rw [if_neg (by rwa [List.isEmpty_iff]), if_pos]
            obtain ⟨v, hv⟩ := List.exists_mem_of_ne_nil _ hempty
            exact ⟨ha, hb, hab, hdom, hpost, hclass, v, (hbetween v).1 hv⟩
        · rw [if_pos (fun heq => hclass ((hclasses.eq_iff a ha.isEdge b hb.isEdge hab).1 heq)),
            if_neg fun h : IsBoundary fg a b => hclass h.equivalent]
          rfl

/-! ## The loop over all pairs -/

theorem mem_boundaryPairs {count a b : Nat} :
    (a, b) ∈ boundaryPairs count ↔ a < count ∧ b < count := by
  simp [boundaryPairs]

theorem boundaryPairs_nodup (count : Nat) : (boundaryPairs count).Nodup := by
  rw [boundaryPairs, List.nodup_flatMap]
  refine ⟨fun a _ => List.nodup_range.map fun b c heq => (Prod.mk.inj heq).2, ?_⟩
  refine List.nodup_range.imp ?_
  intro a a' hne p hp hp'
  obtain ⟨b, -, rfl⟩ := List.mem_map.1 hp
  obtain ⟨c, -, heq⟩ := List.mem_map.1 hp'
  exact hne (Prod.mk.inj heq).1.symm

open Classical in
/-- What the loop over pairs collects. -/
noncomputable def boundaries (fg : Flowgraph NodeId EdgeId) : List Boundary :=
  (boundaryPairs fg.originalCount).filterMap fun p =>
    if IsBoundary fg p.1 p.2 then some (p.1, p.2, between fg p.1 p.2) else none

omit [LinearOrder NodeId] [LinearOrder EdgeId] in
theorem mem_boundaries {c : Boundary} :
    c ∈ boundaries fg ↔ (c.1 < fg.originalCount ∧ c.2.1 < fg.originalCount) ∧
      IsBoundary fg c.1 c.2.1 ∧ c.2.2 = between fg c.1 c.2.1 := by
  obtain ⟨a, b, nodes⟩ := c
  rw [boundaries, List.mem_filterMap]
  constructor
  · rintro ⟨⟨a', b'⟩, hp, hc⟩
    by_cases hcand : IsBoundary fg a' b'
    · rw [if_pos hcand] at hc
      obtain ⟨rfl, rfl, rfl⟩ : a' = a ∧ b' = b ∧ between fg a' b' = nodes := by simpa using hc
      exact ⟨mem_boundaryPairs.1 hp, hcand, rfl⟩
    · rw [if_neg hcand] at hc
      cases hc
  · rintro ⟨hp, hcand, hnodes⟩
    obtain rfl : nodes = between fg a b := hnodes
    exact ⟨(a, b), mem_boundaryPairs.2 hp, if_pos hcand⟩

omit [LinearOrder NodeId] [LinearOrder EdgeId] in
theorem boundary_of_pair {p : Nat × Nat} (hp : p ∈ boundaryPairs fg.originalCount)
    (hcand : IsBoundary fg p.1 p.2) : (p.1, p.2, between fg p.1 p.2) ∈ boundaries fg :=
  mem_boundaries.2 ⟨mem_boundaryPairs.1 hp, hcand, rfl⟩

omit [LinearOrder NodeId] [LinearOrder EdgeId] in
/-- A pair has one set of nodes. -/
theorem boundaries_inj {c d : Boundary} (hc : c ∈ boundaries fg) (hd : d ∈ boundaries fg)
    (hfirst : c.1 = d.1) (hsecond : c.2.1 = d.2.1) : c = d := by
  obtain ⟨a, b, nodes⟩ := c
  obtain ⟨a', b', nodes'⟩ := d
  obtain rfl : a = a' := hfirst
  obtain rfl : b = b' := hsecond
  obtain rfl : nodes = between fg a b := (mem_boundaries.1 hc).2.2
  obtain rfl : nodes' = between fg a b := (mem_boundaries.1 hd).2.2
  rfl

omit [LinearOrder NodeId] [LinearOrder EdgeId] in
theorem boundaries_nodup (fg : Flowgraph NodeId EdgeId) : (boundaries fg).Nodup := by
  refine (boundaryPairs_nodup _).filterMap ?_
  rintro ⟨a, b⟩ ⟨a', b'⟩ c hp hq
  by_cases hcand : IsBoundary fg a b
  · by_cases hcand' : IsBoundary fg a' b'
    · simp only [if_pos hcand, Option.mem_some_iff] at hp
      simp only [if_pos hcand', Option.mem_some_iff] at hq
      subst hp
      exact Prod.ext (Prod.mk.inj hq).1.symm (Prod.mk.inj (Prod.mk.inj hq).2).1.symm
    · simp [if_neg hcand'] at hq
  · simp [if_neg hcand] at hp

omit [LinearOrder NodeId] [LinearOrder EdgeId] in
theorem lt_of_mem_boundary {c : Boundary} (hc : c ∈ boundaries fg) {u : Nat} (hu : u ∈ c.2.2) :
    u < fg.ids.length := by
  rw [(mem_boundaries.1 hc).2.2] at hu
  exact List.mem_range.1 (List.mem_filter.1 hu).1

/-! ## In the terms of the graph -/

/-- `c` is a pair of edges of the graph that is a boundary, with the nodes between them. -/
def IsCandidate (g : GraphView NodeId EdgeId) (root : NodeId) (c : SeseCandidate NodeId EdgeId) :
    Prop :=
  ∃ e f, e.id = c.entryEdge ∧ f.id = c.exitEdge ∧
    (augmented g root).IsCandidate (some root) none (.original e) (.original f) ∧
    c.containedNodes.Pairwise (· < ·) ∧
    ∀ v, v ∈ c.containedNodes ↔ some v ∈ (augmented g root).region (.original e) (.original f)

/-- `(contained_nodes.len(), entry_edge, exit_edge)`. -/
def sizeKey (c : SeseCandidate NodeId EdgeId) : Nat ×ₗ EdgeId ×ₗ EdgeId :=
  toLex (c.containedNodes.length, toLex (c.entryEdge, c.exitEdge))

/-- `c` is the boundary `b` with identifiers for numbers. -/
structure Names (root : NodeId) (fg : Flowgraph NodeId EdgeId)
    (originals : List (GraphEdge NodeId EdgeId)) (b : Boundary) (c : SeseCandidate NodeId EdgeId) :
    Prop where
  entry : ∃ e, originals[b.1]? = some e ∧ e.id = c.entryEdge
  exit : ∃ f, originals[b.2.1]? = some f ∧ f.id = c.exitEdge
  nodes : c.containedNodes = b.2.2.map fun v => fg.ids.getD v root

namespace Numbers

theorem lt_iff (h : Numbers g root fg originals leaving) {i j : Nat} {e f : GraphEdge NodeId EdgeId}
    (hi : originals[i]? = some e) (hj : originals[j]? = some f) : i < j ↔ e.id < f.id := by
  obtain ⟨hi', rfl⟩ := List.getElem?_eq_some_iff.1 hi
  obtain ⟨hj', rfl⟩ := List.getElem?_eq_some_iff.1 hj
  have hlt := List.pairwise_iff_getElem.1 h.originals_lt
  constructor
  · exact hlt i j hi' hj'
  · intro hid
    rcases Nat.lt_trichotomy i j with hij | rfl | hij
    · exact hij
    · exact absurd hid (lt_irrefl _)
    · exact absurd hid (lt_asymm (hlt j i hj' hi' hij))

theorem eq_iff (h : Numbers g root fg originals leaving) {i j : Nat} {e f : GraphEdge NodeId EdgeId}
    (hi : originals[i]? = some e) (hj : originals[j]? = some f) : i = j ↔ e.id = f.id := by
  have hlt := h.lt_iff hi hj
  have hgt := h.lt_iff hj hi
  constructor
  · intro heq
    exact le_antisymm (not_lt.1 (hgt.not.1 (by omega))) (not_lt.1 (hlt.not.1 (by omega)))
  · intro heq
    have := hlt.not.2 (by rw [heq]; exact lt_irrefl _)
    have := hgt.not.2 (by rw [heq]; exact lt_irrefl _)
    omega

/-- Naming keeps the order of selection. -/
theorem key_lt_iff (h : Numbers g root fg originals leaving) {b b' : Boundary}
    {c c' : SeseCandidate NodeId EdgeId} (hb : Names root fg originals b c)
    (hb' : Names root fg originals b' c') : boundaryKey b < boundaryKey b' ↔ sizeKey c < sizeKey c' := by
  obtain ⟨e, he, hid⟩ := hb.entry
  obtain ⟨f, hf, hfid⟩ := hb.exit
  obtain ⟨e', he', hid'⟩ := hb'.entry
  obtain ⟨f', hf', hfid'⟩ := hb'.exit
  simp only [boundaryKey, sizeKey, Prod.Lex.toLex_lt_toLex, hb.nodes, hb'.nodes, List.length_map,
    ← hid, ← hid', ← hfid, ← hfid', h.lt_iff he he', h.eq_iff he he', h.lt_iff hf hf']

end Numbers

omit [LinearOrder EdgeId] in
/-- The boundary edges determine the nodes. -/
theorem IsCandidate.eq_of_edges {c d : SeseCandidate NodeId EdgeId} (hc : IsCandidate g root c)
    (hd : IsCandidate g root d) (hentry : c.entryEdge = d.entryEdge)
    (hexit : c.exitEdge = d.exitEdge) : c = d := by
  obtain ⟨e, f, he, hf, hcand, hsorted, hmem⟩ := hc
  obtain ⟨e', f', he', hf', hcand', hsorted', hmem'⟩ := hd
  obtain rfl := GraphView.edge_eq_of_id hcand.entry_inner.isEdge.1 hcand'.entry_inner.isEdge.1
    (he.trans (hentry.trans he'.symm))
  obtain rfl := GraphView.edge_eq_of_id hcand.exit_inner.isEdge.1 hcand'.exit_inner.isEdge.1
    (hf.trans (hexit.trans hf'.symm))
  have hnodes : c.containedNodes = d.containedNodes :=
    hsorted.eq_of_mem_iff hsorted' fun v => (hmem v).trans (hmem' v).symm
  cases c
  cases d
  simp_all

namespace Names

omit [LinearOrder NodeId] [LinearOrder EdgeId] in
theorem unique {b : Boundary} {c d : SeseCandidate NodeId EdgeId}
    (hc : Names root fg originals b c) (hd : Names root fg originals b d) : c = d := by
  obtain ⟨e, he, hid⟩ := hc.entry
  obtain ⟨f, hf, hfid⟩ := hc.exit
  obtain ⟨e', he', hid'⟩ := hd.entry
  obtain ⟨f', hf', hfid'⟩ := hd.exit
  obtain rfl := Option.some.inj (he.symm.trans he')
  obtain rfl := Option.some.inj (hf.symm.trans hf')
  have hnodes := hc.nodes.trans hd.nodes.symm
  cases c
  cases d
  simp_all

theorem isCandidate (h : Numbers g root fg originals leaving) {b : Boundary}
    {c : SeseCandidate NodeId EdgeId} (hb : b ∈ boundaries fg) (hc : Names root fg originals b c) :
    IsCandidate g root c := by
  obtain ⟨e, he, hid⟩ := hc.entry
  obtain ⟨f, hf, hid'⟩ := hc.exit
  obtain ⟨-, hcand, hnodes⟩ := mem_boundaries.1 hb
  have hcand' := (h.isCandidate_iff he hf).1 hcand
  have hbound := fun u => lt_of_mem_boundary hb (u := u)
  have hget : ∀ u ∈ b.2.2, fg.ids[u]? = some (fg.ids.getD u root) := by
    intro u hu
    rw [List.getD_eq_getElem _ _ (hbound u hu)]
    exact List.getElem?_eq_getElem (hbound u hu)
  refine ⟨e, f, hid, hid', hcand', ?_, fun v => ?_⟩
  -- The nodes are numbered in increasing order.
  · have hlt : b.2.2.Pairwise (· < ·) := by
      rw [hnodes]
      exact List.pairwise_lt_range.filter _
    rw [hc.nodes, List.pairwise_map]
    refine hlt.imp_of_mem fun {u w} hu hw huw => ?_
    rw [List.getD_eq_getElem _ _ (hbound u hu), List.getD_eq_getElem _ _ (hbound w hw)]
    exact List.pairwise_iff_getElem.1 h.ids_lt u w _ _ huw
  · rw [hc.nodes, List.mem_map]
    constructor
    · rintro ⟨u, hu, rfl⟩
      rw [← h.mem_region_iff he hf (hget u hu)]
      rw [hnodes] at hu
      exact (mem_between h.inBounds (h.isEdge_of_original he) hcand.postdominates).1 hu
    · intro hv
      have hreach := connected_iff.1 (hcand'.reached (augmented_flow g root) hv)
      have hu := List.getElem?_idxOf ((h.mem_ids v).2 hreach)
      refine ⟨fg.ids.idxOf v, ?_, by rw [List.getD_eq_getElem?_getD, hu]; rfl⟩
      rw [hnodes, mem_between h.inBounds (h.isEdge_of_original he) hcand.postdominates,
        h.mem_region_iff he hf hu]
      exact hv

end Names

omit [LinearOrder NodeId] [LinearOrder EdgeId] in
theorem nodeIds_eq (fg : Flowgraph NodeId EdgeId) (d : NodeId) {nodes : List Nat}
    (hnodes : ∀ u ∈ nodes, u < fg.ids.length) :
    nodeIds fg nodes = .ok (nodes.map fun u => fg.ids.getD u d) := by
  have hrun := filterMapChecked_of_ok (g := fun u => some (fg.ids.getD u d)) nodes (f := fun node => do
    let id ← index fg.ids node
    return some id) fun u hu => by rw [index_of_lt (hnodes u hu) d]; rfl
  rwa [List.filterMap_eq_map'] at hrun

namespace Numbers

/-- The original edge at a position, as the flow graph stores it. -/
theorem index_original (h : Numbers g root fg originals leaving) {a : Nat}
    {e : GraphEdge NodeId EdgeId} (ha : originals[a]? = some e) :
    ∃ edge, index fg.edges a = .ok edge ∧ edge.original = some e.id :=
  ⟨_, index_of_getElem? (h.edge_of_name (name_original _ ha)), rfl⟩

theorem exists_names (h : Numbers g root fg originals leaving) {b : Boundary}
    (hb : b ∈ boundaries fg) : ∃ c, makeCandidate fg b.1 b.2.1 b.2.2 = .ok c ∧
      Names root fg originals b c := by
  obtain ⟨⟨hlt, hlt'⟩, -, -⟩ := mem_boundaries.1 hb
  obtain ⟨e, he⟩ := h.exists_of_lt hlt
  obtain ⟨f, hf⟩ := h.exists_of_lt hlt'
  obtain ⟨edgeA, hA, hA'⟩ := h.index_original he
  obtain ⟨edgeB, hB, hB'⟩ := h.index_original hf
  refine ⟨⟨e.id, f.id, b.2.2.map fun u => fg.ids.getD u root⟩, ?_, ⟨e, he, rfl⟩, ⟨f, hf, rfl⟩, rfl⟩
  rw [makeCandidate, hA, hB, nodeIds_eq fg root fun u => lt_of_mem_boundary hb]
  show (unwrap edgeA.original >>= _) = _
  rw [hA']
  show (unwrap edgeB.original >>= _) = _
  rw [hB']
  rfl

theorem exists_boundary (h : Numbers g root fg originals leaving) {c : SeseCandidate NodeId EdgeId}
    (hc : IsCandidate g root c) : ∃ b ∈ boundaries fg, Names root fg originals b c := by
  obtain ⟨e, f, he, hf, hcand, -⟩ := id hc
  obtain ⟨a, ha⟩ := List.mem_iff_getElem?.1 ((h.mem_originals e).2 hcand.entry_inner.isEdge)
  obtain ⟨b, hb⟩ := List.mem_iff_getElem?.1 ((h.mem_originals f).2 hcand.exit_inner.isEdge)
  have hmem : (a, b, between fg a b) ∈ boundaries fg :=
    mem_boundaries.2 ⟨⟨h.lt_of_original ha, h.lt_of_original hb⟩, (h.isCandidate_iff ha hb).2 hcand,
      rfl⟩
  obtain ⟨d, -, hd⟩ := h.exists_names hmem
  obtain ⟨e', he', hid⟩ := hd.entry
  obtain ⟨f', hf', hid'⟩ := hd.exit
  obtain rfl := Option.some.inj (ha.symm.trans he')
  obtain rfl := Option.some.inj (hb.symm.trans hf')
  have heq := hc.eq_of_edges (hd.isCandidate h hmem) (he.symm.trans hid) (hf.symm.trans hid')
  exact ⟨_, hmem, heq ▸ hd⟩

/-- One name names one boundary. -/
theorem names_inj (h : Numbers g root fg originals leaving) {b b' : Boundary}
    {c : SeseCandidate NodeId EdgeId} (hb : b ∈ boundaries fg) (hb' : b' ∈ boundaries fg)
    (hc : Names root fg originals b c) (hc' : Names root fg originals b' c) : b = b' := by
  obtain ⟨e, he, hid⟩ := hc.entry
  obtain ⟨f, hf, hfid⟩ := hc.exit
  obtain ⟨e', he', hid'⟩ := hc'.entry
  obtain ⟨f', hf', hfid'⟩ := hc'.exit
  exact boundaries_inj hb hb' ((h.eq_iff he he').2 (hid.trans hid'.symm))
    ((h.eq_iff hf hf').2 (hfid.trans hfid'.symm))

end Numbers

/-! ## `compute_sese_candidates` -/

open Classical in
theorem Numbers.regionBetween_eq (h : Numbers g root fg originals leaving) {classes : List Nat}
    (hclasses : Separates fg.edges classes) :
    ∀ p ∈ boundaryPairs fg.originalCount, regionBetween fg classes p.1 p.2 =
      .ok (if IsBoundary fg p.1 p.2 then some (p.1, p.2, between fg p.1 p.2) else none) := by
  rintro ⟨a, b⟩ hp
  obtain ⟨ha, hb⟩ := mem_boundaryPairs.1 hp
  obtain ⟨e, he⟩ := h.exists_of_lt ha
  obtain ⟨f, hf⟩ := h.exists_of_lt hb
  exact Sese.regionBetween_eq h.inBounds (Nat.lt_succ_of_lt h.entry_lt) hclasses
    (h.inner_of_original he) (h.inner_of_original hf)

open Classical in
/-- What the loop of `compute_sese_candidates` yields for a pair. -/
noncomputable def candidateAt (fg : Flowgraph NodeId EdgeId) (p : Nat × Nat) :
    Option (SeseCandidate NodeId EdgeId) :=
  if IsBoundary fg p.1 p.2 then
    (makeCandidate fg p.1 p.2 (between fg p.1 p.2)).toOption
  else none

theorem Numbers.candidateAt_eq_some (h : Numbers g root fg originals leaving) {p : Nat × Nat}
    (hp : p ∈ boundaryPairs fg.originalCount) {c : SeseCandidate NodeId EdgeId} :
    candidateAt fg p = some c ↔
      IsBoundary fg p.1 p.2 ∧ Names root fg originals (p.1, p.2, between fg p.1 p.2) c := by
  by_cases hcand : IsBoundary fg p.1 p.2
  · obtain ⟨d, hrun, hd⟩ := h.exists_names (boundary_of_pair hp hcand)
    rw [candidateAt, if_pos hcand, hrun, and_iff_right hcand]
    constructor
    · intro heq
      obtain rfl := Option.some.inj heq
      exact hd
    · intro hc
      rw [hd.unique hc]
      rfl
  · rw [candidateAt, if_neg hcand]
    simp [hcand]

/-- The candidates are listed, each once, the largest first. -/
theorem computeSeseCandidates_spec (g : GraphView NodeId EdgeId) (root : NodeId) :
    ∃ cs, computeSeseCandidates g root = .ok cs ∧ (∀ c, c ∈ cs ↔ IsCandidate g root c) ∧
      cs.Pairwise fun c d => candidateKey c < candidateKey d := by
  obtain ⟨fg, originals, leaving, hbuild, h⟩ := buildFlowgraph_spec g root
  obtain ⟨classes, hclasses, hseparates⟩ := h.separates
  -- The pairs of numbers that pass the checks are those of the candidates.
  have hmem : ∀ c, c ∈ (boundaryPairs fg.originalCount).filterMap (candidateAt fg) ↔
      IsCandidate g root c := by
    intro c
    rw [List.mem_filterMap]
    constructor
    · rintro ⟨p, hp, hc⟩
      obtain ⟨hcand, hnames⟩ := (h.candidateAt_eq_some hp).1 hc
      exact hnames.isCandidate h (boundary_of_pair hp hcand)
    · intro hc
      obtain ⟨⟨a, b, nodes⟩, hb, hnames⟩ := h.exists_boundary hc
      obtain ⟨hlt, hcand, hnodes⟩ := mem_boundaries.1 hb
      obtain rfl : nodes = between fg a b := hnodes
      exact ⟨(a, b), mem_boundaryPairs.2 hlt,
        (h.candidateAt_eq_some (mem_boundaryPairs.2 hlt)).2 ⟨hcand, hnames⟩⟩
  refine ⟨sortByKey candidateKey ((boundaryPairs fg.originalCount).filterMap (candidateAt fg)), ?_,
    fun c => by rw [mem_sortByKey, hmem], pairwise_lt_sortByKey ?_⟩
  · rw [computeSeseCandidates, hbuild]
    show (jppCycleClasses fg.edges fg.size fg.entry >>= _) = _
    rw [hclasses]
    show (filterMapChecked _ _ >>= _) = _
    rw [filterMapChecked_of_ok (g := candidateAt fg)]
    · rfl
    · intro p hp
      show (regionBetween fg classes p.1 p.2 >>= _) = _
      rw [h.regionBetween_eq hseparates p hp, candidateAt]
      by_cases hcand : IsBoundary fg p.1 p.2
      · obtain ⟨d, hrun, -⟩ := h.exists_names (boundary_of_pair hp hcand)
        rw [if_pos hcand, if_pos hcand]
        show (makeCandidate fg p.1 p.2 (between fg p.1 p.2) >>= _) = _
        rw [hrun]
        rfl
      · rw [if_neg hcand, if_neg hcand]
        rfl
  · rw [List.Nodup, List.pairwise_map, List.pairwise_filterMap]
    refine (boundaryPairs_nodup _).imp_of_mem ?_
    intro p q hp hq hne c hc d hd heq
    obtain ⟨hcand, hc⟩ := (h.candidateAt_eq_some hp).1 hc
    obtain ⟨hcand', hd⟩ := (h.candidateAt_eq_some hq).1 hd
    have hb := boundary_of_pair hp hcand
    have hb' := boundary_of_pair hq hcand'
    -- Two candidates with the same edges are the same.
    have hkey := (Prod.mk.inj (toLex.injective heq)).2
    obtain ⟨hentry, hexit⟩ := Prod.mk.inj (toLex.injective hkey)
    obtain rfl := (hc.isCandidate h hb).eq_of_edges (hd.isCandidate h hb') hentry hexit
    obtain ⟨hfirst, hrest⟩ := Prod.mk.inj (h.names_inj hb hb' hc hd)
    exact hne (Prod.ext hfirst (Prod.mk.inj hrest).1)

end Sese
end Jstd
