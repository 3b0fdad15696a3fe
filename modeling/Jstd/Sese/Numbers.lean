import Jstd.Sese.Augmented

/-!
# Node numbers and edge positions

What `Numbers` says, used: the edge list of the flow graph is the augmented graph with other names
(`Numbers.isRenaming`), its endpoints are node numbers, and its back edge lies on a cycle.
-/

namespace Jstd
namespace Sese

open Foundation

variable {NodeId EdgeId : Type} [LinearOrder NodeId] {g : GraphView NodeId EdgeId} {root : NodeId}

theorem IsFlowEdge.src_reachable {f : FlowEdge NodeId EdgeId} (h : IsFlowEdge g root f) {v : NodeId}
    (hv : f.src = some v) : g.Reachable root v := by
  cases f with
  | original edge =>
      obtain rfl := Option.some.inj hv
      exact h.2.2
  | leave u =>
      obtain rfl := Option.some.inj hv
      exact IsLeaving.reachable h
  | back => cases hv

theorem IsFlowEdge.dst_reachable {f : FlowEdge NodeId EdgeId} (h : IsFlowEdge g root f) {v : NodeId}
    (hv : f.dst root = some v) : g.Reachable root v := by
  cases f with
  | original edge =>
      obtain rfl := Option.some.inj hv
      exact h.2.2.step h.1
  | leave u => cases hv
  | back =>
      obtain rfl := Option.some.inj hv
      exact .refl

/-! ## The number of a vertex -/

section

variable {ids : List NodeId} {x : Option NodeId} (hx : ∀ v, x = some v → v ∈ ids)

include hx

theorem vertexNumber_lt : vertexNumber ids x < ids.length + 1 := by
  cases x with
  | none => exact Nat.lt_succ_self _
  | some v => exact Nat.lt_succ_of_lt (List.idxOf_lt_length_of_mem (hx v rfl))

theorem getElem?_vertexNumber : ids[vertexNumber ids x]? = x := by
  cases x with
  | none => exact List.getElem?_eq_none (Nat.le_refl _)
  | some v => exact List.getElem?_idxOf (hx v rfl)

end

omit [LinearOrder NodeId] in
/-- Numbers of one node are equal. -/
theorem getD_inj (root : NodeId) {ids : List NodeId} (hnodup : ids.Nodup) {u w : Nat}
    (hu : u < ids.length) (hw : w < ids.length) (heq : ids.getD u root = ids.getD w root) : u = w := by
  rw [List.getD_eq_getElem _ _ hu, List.getD_eq_getElem _ _ hw] at heq
  exact (List.Nodup.getElem_inj_iff hnodup).1 heq

namespace Numbers

variable [LinearOrder EdgeId] {fg : Flowgraph NodeId EdgeId}
  {originals : List (GraphEdge NodeId EdgeId)} {leaving : List NodeId}

theorem mem_names (h : Numbers g root fg originals leaving) {f : FlowEdge NodeId EdgeId} :
    f ∈ edgeNames originals leaving ↔ IsFlowEdge g root f := by
  cases f with
  | original e => simp [edgeNames, h.mem_originals]
  | leave v => simp [edgeNames, h.mem_leaving, IsFlowEdge]
  | back => simp [edgeNames, IsFlowEdge]

theorem names_nodup (h : Numbers g root fg originals leaving) :
    (edgeNames originals leaving).Nodup := by
  have horiginals : originals.Nodup := h.originals_lt.imp fun hlt heq => hlt.ne (by rw [heq])
  have hfirst : (originals.map FlowEdge.original).Nodup :=
    horiginals.map fun e f heq => FlowEdge.original.inj heq
  have hsecond : (leaving.map .leave : List (FlowEdge NodeId EdgeId)).Nodup :=
    h.leaving_nodup.map fun u v heq => FlowEdge.leave.inj heq
  rw [edgeNames, List.nodup_append, List.nodup_append]
  refine ⟨⟨hfirst, hsecond, ?_⟩, List.nodup_singleton _, ?_⟩
  · intro a ha b hb
    obtain ⟨e, -, rfl⟩ := List.mem_map.1 ha
    obtain ⟨v, -, rfl⟩ := List.mem_map.1 hb
    intro heq
    cases heq
  · intro a ha b hb
    obtain rfl := List.mem_singleton.1 hb
    rcases List.mem_append.1 ha with ha | ha
    · obtain ⟨e, -, rfl⟩ := List.mem_map.1 ha
      intro heq
      cases heq
    · obtain ⟨v, -, rfl⟩ := List.mem_map.1 ha
      intro heq
      cases heq

theorem ids_nodup (h : Numbers g root fg originals leaving) : fg.ids.Nodup :=
  h.ids_lt.nodup

theorem src_mem (h : Numbers g root fg originals leaving) {f : FlowEdge NodeId EdgeId}
    (hf : IsFlowEdge g root f) : ∀ v, f.src = some v → v ∈ fg.ids :=
  fun v hv => (h.mem_ids v).2 (hf.src_reachable hv)

theorem dst_mem (h : Numbers g root fg originals leaving) {f : FlowEdge NodeId EdgeId}
    (hf : IsFlowEdge g root f) : ∀ v, f.dst root = some v → v ∈ fg.ids :=
  fun v hv => (h.mem_ids v).2 (hf.dst_reachable hv)

theorem edge_of_name (h : Numbers g root fg originals leaving) {i : Nat}
    {f : FlowEdge NodeId EdgeId} (hf : (edgeNames originals leaving)[i]? = some f) :
    fg.edges[i]? = some (numberEdge root fg.ids f) := by
  rw [h.edges, List.getElem?_map, hf]
  rfl

theorem exists_name (h : Numbers g root fg originals leaving) {i : Nat}
    (hi : (edgeGraph fg.edges).IsEdge i) :
    ∃ f, (edgeNames originals leaving)[i]? = some f ∧ IsFlowEdge g root f := by
  have hlt : i < (edgeNames originals leaving).length := by
    rw [← List.length_map (f := numberEdge root fg.ids), ← h.edges]
    exact hi
  exact ⟨_, List.getElem?_eq_getElem hlt, h.mem_names.1 (List.getElem_mem hlt)⟩

theorem inBounds (h : Numbers g root fg originals leaving) : InBounds fg.edges fg.size := by
  intro edge hedge
  rw [h.edges] at hedge
  obtain ⟨f, hf, rfl⟩ := List.mem_map.1 hedge
  have hf := h.mem_names.1 hf
  exact ⟨vertexNumber_lt (h.src_mem hf), vertexNumber_lt (h.dst_mem hf)⟩

theorem entry_lt (h : Numbers g root fg originals leaving) : fg.entry < fg.ids.length := by
  rw [h.entry]
  exact List.idxOf_lt_length_of_mem ((h.mem_ids root).2 .refl)

theorem getElem?_entry (h : Numbers g root fg originals leaving) :
    fg.ids[fg.entry]? = some root := by
  rw [h.entry]
  exact List.getElem?_idxOf ((h.mem_ids root).2 .refl)

omit [LinearOrder NodeId] [LinearOrder EdgeId] in
theorem getElem?_syntheticExit (fg : Flowgraph NodeId EdgeId) :
    fg.ids[fg.syntheticExit]? = none :=
  List.getElem?_eq_none (Nat.le_refl _)

/-- The flow graph is the augmented graph with numbers for names. -/
theorem isRenaming (h : Numbers g root fg originals leaving) :
    Multigraph.Renaming (edgeGraph fg.edges) (augmented g root) (fun v => v < fg.size)
      (fun v => fg.ids[v]?) (fun i => (edgeNames originals leaving).getD i .back) := by
  have hname : ∀ {i f}, (edgeNames originals leaving)[i]? = some f →
      (edgeNames originals leaving).getD i .back = f := by
    intro i f hf
    rw [List.getD_eq_getElem?_getD, hf]
    rfl
  constructor
  · intro i hi
    obtain ⟨f, hf, hedge⟩ := h.exists_name hi
    rw [hname hf]
    exact hedge
  · intro f hf
    obtain ⟨i, hi⟩ := List.mem_iff_getElem?.1 (h.mem_names.2 hf)
    exact ⟨i, edgeGraph_isEdge (h.edge_of_name hi), hname hi⟩
  · intro i j hi hj heq
    obtain ⟨f, hf, -⟩ := h.exists_name hi
    obtain ⟨f', hf', -⟩ := h.exists_name hj
    rw [hname hf, hname hf'] at heq
    subst heq
    exact (List.getElem?_inj (List.getElem?_eq_some_iff.1 hf).1 h.names_nodup).1
      (hf.trans hf'.symm)
  · intro i hi
    obtain ⟨f, hf, hedge⟩ := h.exists_name hi
    rw [hname hf, edgeGraph_src (h.edge_of_name hf)]
    exact (getElem?_vertexNumber (h.src_mem hedge)).symm
  · intro i hi
    obtain ⟨f, hf, hedge⟩ := h.exists_name hi
    rw [hname hf, edgeGraph_dst (h.edge_of_name hf)]
    exact (getElem?_vertexNumber (h.dst_mem hedge)).symm
  · exact fun i => h.inBounds.src_lt
  · exact fun i => h.inBounds.dst_lt
  · intro u v hu hv heq
    -- Only the exit has no name.
    rcases Nat.lt_or_ge u fg.ids.length with hlt | hge
    · exact (List.getElem?_inj hlt h.ids_nodup).1 heq
    · rw [List.getElem?_eq_none hge, eq_comm, List.getElem?_eq_none_iff] at heq
      rw [Flowgraph.size] at hu hv
      omega

/-- The back edge lies on a cycle, so the validation of the classes compares it with itself. -/
theorem exists_cycle (h : Numbers g root fg originals leaving) :
    ∃ i < fg.edges.length, ¬ (edgeGraph fg.edges).CycleEquivalent i i := by
  obtain ⟨i, hi, hname⟩ := h.isRenaming.surj .back trivial
  refine ⟨i, hi, fun hcycle => ?_⟩
  have hreach := (augmented_flow g root).reached .back trivial
  have hwalk : (augmented g root).Avoiding .back (some root) none :=
    (Multigraph.avoiding_src hreach).mono fun _ hj => hj.2
  have hcycle := (h.isRenaming.cycleEquivalent_iff hi hi).1 hcycle
  rw [hname] at hcycle
  exact hcycle.left hwalk

/-! ## The original edges -/

omit [LinearOrder NodeId] [LinearOrder EdgeId] in
theorem name_original (leaving : List NodeId) {a : Nat} {e : GraphEdge NodeId EdgeId}
    (ha : originals[a]? = some e) :
    (edgeNames originals leaving)[a]? = some (.original e) := by
  have hlt := (List.getElem?_eq_some_iff.1 ha).1
  rw [edgeNames, List.append_assoc, List.getElem?_append_left (by rwa [List.length_map]),
    List.getElem?_map, ha]
  rfl

theorem exists_of_lt (h : Numbers g root fg originals leaving) {a : Nat}
    (ha : a < fg.originalCount) : ∃ e, originals[a]? = some e := by
  rw [h.count] at ha
  exact ⟨_, List.getElem?_eq_getElem ha⟩

theorem lt_of_original (h : Numbers g root fg originals leaving) {a : Nat}
    {e : GraphEdge NodeId EdgeId} (ha : originals[a]? = some e) : a < fg.originalCount := by
  rw [h.count]
  exact (List.getElem?_eq_some_iff.1 ha).1

theorem isEdge_of_original (h : Numbers g root fg originals leaving) {a : Nat}
    {e : GraphEdge NodeId EdgeId} (ha : originals[a]? = some e) :
    (edgeGraph fg.edges).IsEdge a :=
  edgeGraph_isEdge (h.edge_of_name (name_original leaving ha))

theorem inner_of_original (h : Numbers g root fg originals leaving) {a : Nat}
    {e : GraphEdge NodeId EdgeId} (ha : originals[a]? = some e) :
    (edgeGraph fg.edges).Inner fg.syntheticExit a := by
  rw [h.isRenaming.inner_iff (Nat.lt_succ_self fg.syntheticExit) (h.isEdge_of_original ha)]
  simp only [getElem?_syntheticExit, List.getD_eq_getElem?_getD,
    name_original leaving ha, Option.getD_some]
  exact inner_original ((h.mem_originals e).1 (List.mem_of_getElem? ha))

theorem isCandidate_iff (h : Numbers g root fg originals leaving) {a b : Nat}
    {e f : GraphEdge NodeId EdgeId} (ha : originals[a]? = some e) (hb : originals[b]? = some f) :
    (edgeGraph fg.edges).IsCandidate fg.entry fg.syntheticExit a b ↔
      (augmented g root).IsCandidate (some root) none (.original e) (.original f) := by
  have hiff := h.isRenaming.isCandidate_iff (Nat.lt_succ_of_lt h.entry_lt)
    (Nat.lt_succ_self fg.syntheticExit) (h.isEdge_of_original ha)
    (h.isEdge_of_original hb)
  simpa only [h.getElem?_entry, getElem?_syntheticExit, List.getD_eq_getElem?_getD,
    name_original leaving ha, name_original leaving hb, Option.getD_some] using hiff

theorem mem_region_iff (h : Numbers g root fg originals leaving) {a b : Nat}
    {e f : GraphEdge NodeId EdgeId} (ha : originals[a]? = some e) (hb : originals[b]? = some f)
    {u : Nat} {v : NodeId} (hu : fg.ids[u]? = some v) :
    u ∈ (edgeGraph fg.edges).region a b ↔
      some v ∈ (augmented g root).region (.original e) (.original f) := by
  have hlt := (List.getElem?_eq_some_iff.1 hu).1
  have hiff := h.isRenaming.mem_region_iff (h.isEdge_of_original ha) (h.isEdge_of_original hb)
    (v := u) (Nat.lt_succ_of_lt hlt)
  simpa only [hu, List.getD_eq_getElem?_getD, name_original leaving ha, name_original leaving hb,
    Option.getD_some] using hiff

end Numbers

end Sese
end Jstd
