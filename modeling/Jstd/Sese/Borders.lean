import Jstd.Sese.Candidates

/-!
# The borders of the candidates

The code never looks at the border of a set of nodes.  Where every node reaches the synthetic exit
its tests amount to the border conditions `IsRegion`; in general a candidate has one entry, and one
exit exactly when what it leads to comes back to its exit edge (`Returns`).
-/

namespace Jstd
namespace Sese

open Foundation

variable {NodeId EdgeId : Type} [LinearOrder NodeId] {g : GraphView NodeId EdgeId} {root : NodeId}

/-- The nodes as vertices of the augmented graph. -/
def vertices (nodes : List NodeId) : Set (Option NodeId) :=
  {x | ∃ v ∈ nodes, x = some v}

omit [LinearOrder NodeId] in
@[simp] theorem some_mem_vertices {nodes : List NodeId} {v : NodeId} :
    some v ∈ vertices nodes ↔ v ∈ nodes := by
  simp [vertices]

omit [LinearOrder NodeId] in
@[simp] theorem none_notMem_vertices (nodes : List NodeId) : none ∉ vertices nodes := by
  simp [vertices]

theorem length_lt_of_ssubset {α : Type} [DecidableEq α] {xs ys : List α} (hnodup : xs.Nodup)
    (h : {v | v ∈ xs} ⊂ {v | v ∈ ys}) : xs.length < ys.length := by
  rw [← List.toFinset_card_of_nodup hnodup]
  refine lt_of_lt_of_le (Finset.card_lt_card ?_) (List.toFinset_card_le ys)
  rw [← Finset.coe_ssubset]
  simpa using h

omit [LinearOrder NodeId] in
theorem vertices_subset {xs ys : List NodeId} :
    vertices xs ⊆ vertices ys ↔ {v | v ∈ xs} ⊆ {v | v ∈ ys} := by
  constructor
  · intro h v hv
    exact some_mem_vertices.1 (h (some_mem_vertices.2 hv))
  · rintro h x ⟨v, hv, rfl⟩
    exact some_mem_vertices.2 (h hv)

/-- `a` alone enters the nodes, and `b` alone leaves them. -/
structure Borders (g : GraphView NodeId EdgeId) (root : NodeId) (a b : GraphEdge NodeId EdgeId)
    (nodes : List NodeId) : Prop where
  entry_mem : IsFlowEdge g root (.original a)
  exit_mem : IsFlowEdge g root (.original b)
  ne : a ≠ b
  nonempty : nodes ≠ []
  reachable : ∀ v ∈ nodes, g.Reachable root v
  entry : ∀ i, (augmented g root).IsEdge i →
    ((augmented g root).src i ∉ vertices nodes ∧ (augmented g root).dst i ∈ vertices nodes ↔
      i = .original a)
  exit : ∀ i, (augmented g root).IsEdge i →
    ((augmented g root).src i ∈ vertices nodes ∧ (augmented g root).dst i ∉ vertices nodes ↔
      i = .original b)

/-- A triple `(a, b, N)` with these borders; `N` is listed in increasing order. -/
def IsRegion (g : GraphView NodeId EdgeId) (root : NodeId) (c : SeseCandidate NodeId EdgeId) :
    Prop :=
  ∃ a b, a.id = c.entryEdge ∧ b.id = c.exitEdge ∧ Borders g root a b c.containedNodes ∧
    c.containedNodes.Pairwise (· < ·)

theorem borders_iff {a b : GraphEdge NodeId EdgeId} {nodes : List NodeId} :
    Borders g root a b nodes ↔
      (augmented g root).IsSese (some root) none (.original a) (.original b) (vertices nodes) := by
  constructor
  · intro h
    have hentry := (h.entry (.original a) h.entry_mem).2 rfl
    have hexit := (h.exit (.original b) h.exit_mem).2 rfl
    refine ⟨inner_original h.entry_mem, inner_original h.exit_mem,
      fun heq => h.ne (FlowEdge.original.inj heq), ?_, none_notMem_vertices nodes, hentry.1, hentry.2,
      hexit.1, hexit.2, fun i hi hsrc hdst => (h.entry i hi).1 ⟨hsrc, hdst⟩,
      fun i hi hsrc hdst => (h.exit i hi).1 ⟨hsrc, hdst⟩⟩
    rintro x ⟨v, hv, rfl⟩
    exact connected_iff.2 (h.reachable v hv)
  · intro h
    refine ⟨h.entry_inner.isEdge, h.exit_inner.isEdge, fun heq => h.ne (heq ▸ rfl), ?_, ?_, ?_, ?_⟩
    · obtain ⟨v, hv, -⟩ := h.entry_dst
      exact List.ne_nil_of_mem hv
    · exact fun v hv => connected_iff.1 (h.reached (some v) (some_mem_vertices.2 hv))
    · intro i hi
      refine ⟨fun hcross => h.only_entry i hi hcross.1 hcross.2, ?_⟩
      rintro rfl
      exact ⟨h.entry_src, h.entry_dst⟩
    · intro i hi
      refine ⟨fun hcross => h.only_exit i hi hcross.1 hcross.2, ?_⟩
      rintro rfl
      exact ⟨h.exit_src, h.exit_dst⟩

/-- The nodes of a candidate are those between its edges. -/
theorem vertices_eq_region {a b : GraphEdge NodeId EdgeId} {nodes : List NodeId}
    (hcand : (augmented g root).IsCandidate (some root) none (.original a) (.original b))
    (hmem : ∀ v, v ∈ nodes ↔ some v ∈ (augmented g root).region (.original a) (.original b)) :
    vertices nodes = (augmented g root).region (.original a) (.original b) := by
  ext x
  cases x with
  | none => simp [hcand.exit_notMem]
  | some v => rw [some_mem_vertices, hmem]

/-- Every such pair of edges is listed with its nodes. -/
theorem exists_isCandidate {a b : GraphEdge NodeId EdgeId}
    (hcand : (augmented g root).IsCandidate (some root) none (.original a) (.original b)) :
    ∃ c, a.id = c.entryEdge ∧ b.id = c.exitEdge ∧ IsCandidate g root c := by
  classical
  obtain ⟨reach, hreach⟩ := exists_reach g root
  let nodes := reach.filter fun v =>
    some v ∈ (augmented g root).region (.original a) (.original b)
  refine ⟨⟨a.id, b.id, sortByKey (fun v => v) nodes.toList⟩, rfl, rfl, a, b, rfl, rfl, hcand, ?_,
    fun v => ?_⟩
  · exact pairwise_lt_sortByKey (by simpa using nodes.nodup_toList)
  · rw [mem_sortByKey, Finset.mem_toList, Finset.mem_filter, hreach]
    refine and_iff_right_of_imp fun hv => ?_
    exact connected_iff.1 (hcand.reached (augmented_flow g root) hv)

/-! ## Terminating flow -/

/-- Every reachable node reaches one where control ends. -/
def Terminates (g : GraphView NodeId EdgeId) (root : NodeId) : Prop :=
  ∀ v, g.Reachable root v → ∃ u, g.Reachable v u ∧ IsSink g root u

/-- The last node that can be reached is a sink. -/
theorem terminates_of_increasing (root : NodeId)
    (h : ∀ edge ∈ g.edges, edge.fromId < edge.toId) : Terminates g root := by
  intro v hv
  obtain ⟨reach, hreach⟩ := exists_reach g v
  obtain ⟨u, hu, hmax⟩ := reach.exists_max_image (fun u => u) ⟨v, (hreach v).2 .refl⟩
  have hu := (hreach u).1 hu
  refine ⟨u, hu, Relation.ReflTransGen.trans hv hu, fun edge hedge hfrom => ?_⟩
  subst hfrom
  exact absurd (hmax _ ((hreach _).2 (hu.step hedge))) (not_le.2 (h edge hedge))

theorem Terminates.terminating (h : Terminates g root) :
    (augmented g root).Terminating (some root) none := by
  intro x hx
  cases x with
  | none => exact .refl _
  | some v =>
      have hv := connected_iff.1 hx
      obtain ⟨u, hwalk, hu⟩ := h v hv
      have hleave : (augmented g root).IsEdge (.leave u) := .inl hu
      refine .trans ?_ (.edge hleave trivial)
      show (augmented g root).Connected (some v) (some u)
      clear hu hleave
      induction hwalk with
      | refl => exact .refl _
      | tail hreach hstep ih =>
          obtain ⟨edge, hmem, rfl, rfl⟩ := hstep
          by_cases hne : edge.fromId = edge.toId
          · rwa [← hne]
          · have hedge : (augmented g root).IsEdge (.original edge) :=
              ⟨hmem, hne, Relation.ReflTransGen.trans hv hreach⟩
            exact ih.trans (.edge hedge trivial)

theorem isRegion_iff (hterm : (augmented g root).Terminating (some root) none)
    {c : SeseCandidate NodeId EdgeId} : IsRegion g root c ↔ IsCandidate g root c := by
  constructor
  · rintro ⟨a, b, ha, hb, hborders, hsorted⟩
    obtain ⟨hcand, hregion⟩ := (Multigraph.isSese_iff (augmented_flow g root) hterm).1
      (borders_iff.1 hborders)
    exact ⟨a, b, ha, hb, hcand, hsorted, fun v => by rw [hregion, some_mem_vertices]⟩
  · rintro ⟨a, b, ha, hb, hcand, hsorted, hmem⟩
    refine ⟨a, b, ha, hb, borders_iff.2 ?_, hsorted⟩
    exact (Multigraph.isSese_iff (augmented_flow g root) hterm).2
      ⟨hcand, (vertices_eq_region hcand hmem).symm⟩

/-- The candidates of a terminating graph are its single-entry single-exit regions, each listed
once. -/
theorem computeSeseCandidates_regions [LinearOrder EdgeId] (g : GraphView NodeId EdgeId)
    (root : NodeId) (hterm : (augmented g root).Terminating (some root) none) :
    ∃ cs, computeSeseCandidates g root = .ok cs ∧ (∀ c, c ∈ cs ↔ IsRegion g root c) ∧
      cs.Pairwise fun c d => (c.entryEdge, c.exitEdge) ≠ (d.entryEdge, d.exitEdge) := by
  obtain ⟨cs, hrun, hmem, hsorted⟩ := computeSeseCandidates_spec g root
  refine ⟨cs, hrun, fun c => by rw [hmem, isRegion_iff hterm], ?_⟩
  refine hsorted.imp_of_mem fun {c d} hc hd hlt heq => ?_
  obtain ⟨hentry, hexit⟩ := Prod.mk.inj heq
  obtain rfl := ((hmem c).1 hc).eq_of_edges ((hmem d).1 hd) hentry hexit
  exact lt_irrefl _ hlt

/-- `0 → 1 → 2 ⇉ 3 → 4 → 5`. -/
def sandwich : GraphView Nat Nat :=
  .ofEdges [⟨0, 0, 1⟩, ⟨1, 1, 2⟩, ⟨2, 2, 3⟩, ⟨3, 2, 3⟩, ⟨4, 3, 4⟩, ⟨5, 4, 5⟩] (by decide)

theorem sandwich_terminates : Terminates sandwich 0 :=
  terminates_of_increasing 0 (by decide)

theorem computeSeseCandidates_regions_sandwich :
    ∃ cs, computeSeseCandidates sandwich 0 = .ok cs ∧ (∀ c, c ∈ cs ↔ IsRegion sandwich 0 c) ∧
      cs.Pairwise fun c d => (c.entryEdge, c.exitEdge) ≠ (d.entryEdge, d.exitEdge) :=
  computeSeseCandidates_regions sandwich 0 sandwich_terminates.terminating

/-! ## Flow in general -/

/-- Only the edges of the boundary lead into the nodes and out of them. -/
def Closed (g : GraphView NodeId EdgeId) (root : NodeId) (entryEdge exitEdge : EdgeId)
    (nodes : List NodeId) : Prop :=
  ∀ edge ∈ g.edges, g.Reachable root edge.fromId → g.Reachable root edge.toId →
    (edge.fromId ∉ nodes → edge.toId ∈ nodes → edge.id = entryEdge) ∧
    (edge.fromId ∈ nodes → edge.toId ∉ nodes → edge.id = exitEdge)

/-- From wherever `a` leads without `b`, the source of `b` can be reached. -/
def Returns (g : GraphView NodeId EdgeId) (root : NodeId) (a b : GraphEdge NodeId EdgeId) : Prop :=
  ∀ x, (augmented g root).Avoiding (.original b) (some a.toId) x →
    (augmented g root).Connected x (some b.fromId)

theorem closed_iff {a b : GraphEdge NodeId EdgeId} {nodes : List NodeId}
    (hcand : (augmented g root).IsCandidate (some root) none (.original a) (.original b))
    (hmem : ∀ v, v ∈ nodes ↔ some v ∈ (augmented g root).region (.original a) (.original b)) :
    Closed g root a.id b.id nodes ↔ Returns g root a b := by
  refine Iff.trans ?_ hcand.only_exit_iff
  constructor
  · intro h i hi hsrc hdst
    -- An edge out of the region: one of the graph, one to the exit, or the one back.
    cases i with
    | original edge =>
        obtain ⟨hedge, -, hfrom⟩ := id hi
        have hid := (h edge hedge hfrom (hfrom.step hedge)).2 ((hmem _).2 hsrc)
          fun hto => hdst ((hmem _).1 hto)
        rw [GraphView.edge_eq_of_id hedge hcand.exit_inner.isEdge.1 hid]
    | leave v =>
        have hleave := Multigraph.Walk.edge (P := fun i => i ≠ .original b) hi nofun
        exact absurd (hsrc.1.trans hleave) hcand.postdominates
    | back => exact absurd hsrc hcand.exit_notMem
  · intro h edge hedge hfrom _
    constructor
    -- An edge into the nodes is always the entry; it is the other border that may leak.
    · intro hsrc hdst
      have hi : (augmented g root).IsEdge (.original edge) :=
        ⟨hedge, fun heq => hsrc (heq ▸ hdst), hfrom⟩
      have heq := hcand.only_entry (augmented_flow g root) hi (fun hs => hsrc ((hmem _).2 hs))
        ((hmem _).1 hdst)
      rw [FlowEdge.original.inj heq]
    · intro hsrc hdst
      have hi : (augmented g root).IsEdge (.original edge) :=
        ⟨hedge, fun heq => hdst (heq ▸ hsrc), hfrom⟩
      have heq := h _ hi ((hmem _).1 hsrc) fun hs => hdst ((hmem _).2 hs)
      rw [FlowEdge.original.inj heq]

end Sese
end Jstd
