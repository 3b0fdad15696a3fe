import Jstd.Sese.Selection

/-!
# Canonical regions

Where every node reaches the synthetic exit, everything the selection keeps is canonical
(`IsSelected.isCanonical`).  A canonical region crosses nothing, but it is dropped when a smaller
region ends at its entry and another begins at its exit (`IsCanonical.isSelected_iff`).
-/

namespace Jstd
namespace Sese

open Foundation

variable {NodeId EdgeId : Type} [LinearOrder NodeId] {g : GraphView NodeId EdgeId} {root : NodeId}
  {c d : SeseCandidate NodeId EdgeId}

/-! ## Regions as sets -/

/-- The border conditions of a region, with its edges. -/
theorem IsRegion.isSese (h : IsRegion g root c) :
    ∃ a b, a.id = c.entryEdge ∧ b.id = c.exitEdge ∧ (augmented g root).IsSese (some root) none
      (.original a) (.original b) (vertices c.containedNodes) := by
  obtain ⟨a, b, ha, hb, hborders, -⟩ := h
  exact ⟨a, b, ha, hb, borders_iff.1 hborders⟩

theorem IsRegion.sorted (h : IsRegion g root c) : c.containedNodes.Pairwise (· < ·) := by
  obtain ⟨-, -, -, -, -, hsorted⟩ := h
  exact hsorted

/-- A part of a region with such borders is a region. -/
theorem exists_isRegion (hc : IsRegion g root c) {i j : FlowEdge NodeId EdgeId}
    {N : Set (Option NodeId)} (hsub : N ⊆ vertices c.containedNodes)
    (h : (augmented g root).IsSese (some root) none i j N) :
    ∃ a b d, i = .original a ∧ j = .original b ∧ IsRegion g root d ∧ d.entryEdge = a.id ∧
      d.exitEdge = b.id ∧ vertices d.containedNodes = N := by
  classical
  obtain ⟨a, rfl⟩ := exists_original h.entry_inner
  obtain ⟨b, rfl⟩ := exists_original h.exit_inner
  have hN : vertices (c.containedNodes.filter fun v => some v ∈ N) = N := by
    ext x
    cases x with
    | none => simp [h.exit_notMem]
    | some v =>
        rw [some_mem_vertices, List.mem_filter, decide_eq_true_eq]
        exact and_iff_right_of_imp fun hv => some_mem_vertices.1 (hsub hv)
  refine ⟨a, b, ⟨a.id, b.id, c.containedNodes.filter fun v => some v ∈ N⟩, rfl, rfl,
    ⟨a, b, rfl, rfl, borders_iff.2 ?_, hc.sorted.filter _⟩, rfl, rfl, hN⟩
  rw [hN]
  exact h

/-- A strict part has fewer nodes. -/
theorem IsRegion.length_lt (hd : IsRegion g root d)
    (h : vertices d.containedNodes ⊂ vertices c.containedNodes) :
    d.containedNodes.length < c.containedNodes.length := by
  refine length_lt_of_ssubset hd.sorted.nodup ?_
  exact ⟨vertices_subset.1 h.subset, fun hsub => h.2 (vertices_subset.2 hsub)⟩

/-- Nodes have one boundary. -/
theorem IsRegion.eq_of_vertices (hc : IsRegion g root c) (hd : IsRegion g root d)
    (h : vertices c.containedNodes = vertices d.containedNodes) : c = d := by
  obtain ⟨a, b, ha, hb, hsese⟩ := hc.isSese
  obtain ⟨a', b', ha', hb', hsese'⟩ := hd.isSese
  rw [← h] at hsese'
  have hentry := hsese.only_entry _ hsese'.entry_inner.isEdge hsese'.entry_src hsese'.entry_dst
  have hexit := hsese.only_exit _ hsese'.exit_inner.isEdge hsese'.exit_src hsese'.exit_dst
  have hnodes : c.containedNodes = d.containedNodes := hc.sorted.eq_of_mem_iff hd.sorted fun v => by
    rw [← some_mem_vertices, h, some_mem_vertices]
  rw [FlowEdge.original.inj hentry] at ha'
  rw [FlowEdge.original.inj hexit] at hb'
  cases c
  cases d
  simp_all

theorem IsRegion.length_le (hc : IsRegion g root c) (hd : IsRegion g root d)
    (h : vertices c.containedNodes ⊆ vertices d.containedNodes) :
    c.containedNodes.length ≤ d.containedNodes.length := by
  by_cases hback : vertices d.containedNodes ⊆ vertices c.containedNodes
  · rw [hc.eq_of_vertices hd (h.antisymm hback)]
  · exact (hc.length_lt ⟨h, hback⟩).le

/-- Edges with the identifiers of a boundary are its edges. -/
theorem inner_eq {a b : GraphEdge NodeId EdgeId}
    (ha : (augmented g root).Inner none (.original a))
    (hb : (augmented g root).Inner none (.original b)) (h : a.id = b.id) : a = b :=
  GraphView.edge_eq_of_id ha.isEdge.1 hb.isEdge.1 h

/-- Regions that share a vertex, do not cross and have as many nodes as each other are equal. -/
theorem IsRegion.eq_of_length (hc : IsRegion g root c) (hd : IsRegion g root d)
    (hcross : ¬ Crosses (vertices c.containedNodes) (vertices d.containedNodes))
    (hcommon : (vertices c.containedNodes ∩ vertices d.containedNodes).Nonempty)
    (hlen : c.containedNodes.length = d.containedNodes.length) : c = d := by
  rcases nested_of_common hcommon hcross with hsub | hsub
  · refine hc.eq_of_vertices hd (hsub.antisymm ?_)
    by_contra hnot
    exact (hc.length_lt ⟨hsub, hnot⟩).ne hlen
  · refine (hd.eq_of_vertices hc (hsub.antisymm ?_)).symm
    by_contra hnot
    exact (hd.length_lt ⟨hsub, hnot⟩).ne hlen.symm

/-! ## Canonical regions -/

/-- No region with its entry has fewer nodes, and none with its exit. -/
structure IsCanonical (g : GraphView NodeId EdgeId) (root : NodeId)
    (c : SeseCandidate NodeId EdgeId) : Prop where
  region : IsRegion g root c
  entry : ∀ d, IsRegion g root d → d.entryEdge = c.entryEdge →
    c.containedNodes.length ≤ d.containedNodes.length
  exit : ∀ d, IsRegion g root d → d.exitEdge = c.exitEdge →
    c.containedNodes.length ≤ d.containedNodes.length

/-- A canonical region crosses no region: it would be made of smaller ones. -/
theorem IsCanonical.uncrossed (hterm : (augmented g root).Terminating (some root) none)
    (hc : IsCanonical g root c) (hd : IsRegion g root d) :
    ¬ Crosses (vertices c.containedNodes) (vertices d.containedNodes) := by
  intro hcross
  obtain ⟨a, b, ha, hb, hsese⟩ := hc.region.isSese
  obtain ⟨a', b', -, -, hsese'⟩ := hd.isSese
  obtain ⟨⟨e, N₁, N₂, hfirst, -, hsub, -⟩, -, -⟩ :=
    hsese.split_of_cross (augmented_flow g root) hterm hsese' hcross
  obtain ⟨i, j, r, hi, hj, hr, hentry, -, hvertices⟩ := exists_isRegion hc.region hsub.subset hfirst
  have hlt := hr.length_lt (hvertices.symm ▸ hsub)
  obtain rfl := FlowEdge.original.inj hi
  exact absurd (hc.entry r hr (hentry.trans ha)) (not_le.2 hlt)

variable [LinearOrder EdgeId]

omit [LinearOrder NodeId] in
theorem length_le_of_not_lt (h : ¬ sizeKey d < sizeKey c) :
    c.containedNodes.length ≤ d.containedNodes.length := by
  by_contra hlt
  exact h (Prod.Lex.toLex_lt_toLex.2 (.inl (not_le.1 hlt)))

omit [LinearOrder NodeId] in
theorem length_le_of_lt (h : sizeKey d < sizeKey c) :
    d.containedNodes.length ≤ c.containedNodes.length := by
  rcases Prod.Lex.toLex_lt_toLex.1 h with hlt | ⟨heq, -⟩
  · exact hlt.le
  · exact heq.le

/-- What the selection keeps is canonical. -/
theorem IsSelected.isCanonical (hterm : (augmented g root).Terminating (some root) none)
    (hc : IsSelected g root c) : IsCanonical g root c := by
  have hregion := (isRegion_iff hterm).2 hc.candidate
  have hsmaller : ∀ {e d}, LeadsAt g root e c → IsRegion g root d →
      d.entryEdge = e ∨ d.exitEdge = e → c.containedNodes.length ≤ d.containedNodes.length :=
    fun hleads hd he => length_le_of_not_lt (hleads _ ((isRegion_iff hterm).1 hd) he)
  -- It comes first at one of its edges; at the other it could only be cut down.
  rcases hc.leads with hleads | hleads
  · refine ⟨hregion, fun d hd he => hsmaller hleads hd (.inl he), fun d hd he => ?_⟩
    obtain ⟨a, b, ha, hb, hsese⟩ := hregion.isSese
    obtain ⟨a', b', ha', hb', hsese'⟩ := hd.isSese
    obtain rfl := inner_eq hsese'.exit_inner hsese.exit_inner (hb'.trans (he.trans hb.symm))
    rcases nested_of_common ⟨_, hsese.exit_src, hsese'.exit_src⟩
      (hc.uncrossed d ((isRegion_iff hterm).1 hd)) with hsub | hsub
    · exact hregion.length_le hd hsub
    · -- A `d` inside `c` with its exit leaves a smaller region with the entry of `c`.
      by_contra hlt
      have hne : FlowEdge.original a ≠ .original a' := by
        intro heq
        rw [FlowEdge.original.inj heq] at ha
        exact hlt (hsmaller hleads hd (.inl (ha'.symm.trans ha)))
      have hdiff := hsese.diff_of_exit hsese' hsub hne
      obtain ⟨i, j, r, hi, hj, hr, hentry, -, hvertices⟩ :=
        exists_isRegion hregion Set.sdiff_subset hdiff
      obtain rfl := FlowEdge.original.inj hi
      have hpart : vertices r.containedNodes ⊂ vertices c.containedNodes := by
        rw [hvertices]
        exact ⟨Set.sdiff_subset, fun hback => (hback hsese.exit_src).2 hsese'.exit_src⟩
      exact absurd (hsmaller hleads hr (.inl (hentry.trans ha))) (not_le.2 (hr.length_lt hpart))
  · refine ⟨hregion, fun d hd he => ?_, fun d hd he => hsmaller hleads hd (.inr he)⟩
    obtain ⟨a, b, ha, hb, hsese⟩ := hregion.isSese
    obtain ⟨a', b', ha', hb', hsese'⟩ := hd.isSese
    obtain rfl := inner_eq hsese'.entry_inner hsese.entry_inner (ha'.trans (he.trans ha.symm))
    rcases nested_of_common ⟨_, hsese.entry_dst, hsese'.entry_dst⟩
      (hc.uncrossed d ((isRegion_iff hterm).1 hd)) with hsub | hsub
    · exact hregion.length_le hd hsub
    · -- The same on the other side: the exit stays and the entry moves in.
      by_contra hlt
      have hne : FlowEdge.original b' ≠ .original b := by
        intro heq
        rw [FlowEdge.original.inj heq] at hb'
        exact hlt (hsmaller hleads hd (.inr (hb'.symm.trans hb)))
      have hdiff := hsese.diff_of_entry hsese' hsub hne
      obtain ⟨i, j, r, hi, hj, hr, -, hexit, hvertices⟩ :=
        exists_isRegion hregion Set.sdiff_subset hdiff
      obtain rfl := FlowEdge.original.inj hj
      have hpart : vertices r.containedNodes ⊂ vertices c.containedNodes := by
        rw [hvertices]
        exact ⟨Set.sdiff_subset, fun hback => (hback hsese.entry_dst).2 hsese'.entry_dst⟩
      exact absurd (hsmaller hleads hr (.inr (hexit.trans hb))) (not_le.2 (hr.length_lt hpart))

/-- A region that ends at the entry of `c`, and one that begins at its exit, both come before `c`
in the order of selection. -/
def IsSqueezed (g : GraphView NodeId EdgeId) (root : NodeId) (c : SeseCandidate NodeId EdgeId) :
    Prop :=
  (∃ d, IsRegion g root d ∧ d.exitEdge = c.entryEdge ∧ sizeKey d < sizeKey c) ∧
    ∃ d, IsRegion g root d ∧ d.entryEdge = c.exitEdge ∧ sizeKey d < sizeKey c

/-- At the entry of a canonical region only regions that end there compete. -/
theorem IsCanonical.leadsAt_entry_iff (hterm : (augmented g root).Terminating (some root) none)
    (hc : IsCanonical g root c) : LeadsAt g root c.entryEdge c ↔
      ¬ ∃ d, IsRegion g root d ∧ d.exitEdge = c.entryEdge ∧ sizeKey d < sizeKey c := by
  constructor
  · rintro hleads ⟨d, hd, he, hlt⟩
    exact hleads d ((isRegion_iff hterm).1 hd) (.inr he) hlt
  · intro hnone d hd he hlt
    have hd := (isRegion_iff hterm).2 hd
    rcases he with he | he
    · have hlen := le_antisymm (hc.entry d hd he) (length_le_of_lt hlt)
      obtain ⟨a, b, ha, hb, hsese⟩ := hc.region.isSese
      obtain ⟨a', b', ha', hb', hsese'⟩ := hd.isSese
      obtain rfl := inner_eq hsese'.entry_inner hsese.entry_inner (ha'.trans (he.trans ha.symm))
      obtain rfl := hc.region.eq_of_length hd (hc.uncrossed hterm hd)
        ⟨_, hsese.entry_dst, hsese'.entry_dst⟩ hlen
      exact lt_irrefl _ hlt
    · exact hnone ⟨d, hd, he, hlt⟩

/-- At its exit, only regions that begin there. -/
theorem IsCanonical.leadsAt_exit_iff (hterm : (augmented g root).Terminating (some root) none)
    (hc : IsCanonical g root c) : LeadsAt g root c.exitEdge c ↔
      ¬ ∃ d, IsRegion g root d ∧ d.entryEdge = c.exitEdge ∧ sizeKey d < sizeKey c := by
  constructor
  · rintro hleads ⟨d, hd, he, hlt⟩
    exact hleads d ((isRegion_iff hterm).1 hd) (.inl he) hlt
  · intro hnone d hd he hlt
    have hd := (isRegion_iff hterm).2 hd
    rcases he with he | he
    · exact hnone ⟨d, hd, he, hlt⟩
    · have hlen := le_antisymm (hc.exit d hd he) (length_le_of_lt hlt)
      obtain ⟨a, b, ha, hb, hsese⟩ := hc.region.isSese
      obtain ⟨a', b', ha', hb', hsese'⟩ := hd.isSese
      obtain rfl := inner_eq hsese'.exit_inner hsese.exit_inner (hb'.trans (he.trans hb.symm))
      obtain rfl := hc.region.eq_of_length hd (hc.uncrossed hterm hd)
        ⟨_, hsese.exit_src, hsese'.exit_src⟩ hlen
      exact lt_irrefl _ hlt

/-- A canonical region is kept unless smaller ones take both of its boundary edges. -/
theorem IsCanonical.isSelected_iff (hterm : (augmented g root).Terminating (some root) none)
    (hc : IsCanonical g root c) : IsSelected g root c ↔ ¬ IsSqueezed g root c := by
  have hentry := hc.leadsAt_entry_iff hterm
  have hexit := hc.leadsAt_exit_iff hterm
  constructor
  · rintro ⟨-, hleads, -⟩ ⟨hleft, hright⟩
    rcases hleads with hleads | hleads
    · exact hentry.1 hleads hleft
    · exact hexit.1 hleads hright
  · intro hfree
    refine ⟨(isRegion_iff hterm).1 hc.region, ?_, fun d hd =>
      hc.uncrossed hterm ((isRegion_iff hterm).2 hd)⟩
    rcases not_and_or.1 hfree with hleft | hright
    · exact .inl (hentry.2 hleft)
    · exact .inr (hexit.2 hright)

end Sese
end Jstd
