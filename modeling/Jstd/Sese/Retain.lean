import Jstd.Sese.Correctness

/-!
# The laminarity filter

The selection picks a candidate that is the smallest at one of its boundary edges.  Where every node
reaches the synthetic exit such a candidate crosses none: regions that cross are each made of two
smaller ones, and one of those has the boundary edge at which the candidate is the smallest.  So
there the filter that follows is the identity.
-/

namespace Jstd
namespace Sese

open Foundation

variable {NodeId EdgeId : Type} [LinearOrder NodeId] [LinearOrder EdgeId]

/-! ## What is picked -/

variable {g : GraphView NodeId EdgeId} {root : NodeId} {fg : Flowgraph NodeId EdgeId}
  {originals : List (GraphEdge NodeId EdgeId)} {leaving : List NodeId}
  {c d : SeseCandidate NodeId EdgeId}

/-- What is the smallest at its entry or at its exit crosses nothing. -/
theorem not_crosses_of_leads (hterm : (augmented g root).Terminating (some root) none)
    (hc : IsCandidate g root c)
    (hleads : LeadsAt g root c.entryEdge c ∨ LeadsAt g root c.exitEdge c)
    (hd : IsCandidate g root d) :
    ¬ Crosses (vertices c.containedNodes) (vertices d.containedNodes) := by
  intro hcross
  have hc := (isRegion_iff hterm).2 hc
  obtain ⟨a, b, ha, hb, hsese⟩ := hc.isSese
  obtain ⟨a', b', -, -, hsese'⟩ := ((isRegion_iff hterm).2 hd).isSese
  obtain ⟨⟨e, N₁, N₂, hfirst, hsecond, hsub₁, hsub₂⟩, -, -⟩ :=
    hsese.split_of_cross (augmented_flow g root) hterm hsese' hcross
  -- A smaller part comes before `c` wherever it competes with it.
  have hbefore : ∀ {r : SeseCandidate NodeId EdgeId} {e}, IsRegion g root r →
      r.entryEdge = e ∨ r.exitEdge = e → LeadsAt g root e c →
      ¬ vertices r.containedNodes ⊂ vertices c.containedNodes := by
    intro r e hr htouch hleads hsub
    exact hleads r ((isRegion_iff hterm).1 hr) htouch
      (Prod.Lex.toLex_lt_toLex.2 (.inl (hr.length_lt hsub)))
  rcases hleads with hleads | hleads
  · obtain ⟨i, j, r, hi, -, hr, hentry, -, hvertices⟩ := exists_isRegion hc hsub₁.subset hfirst
    obtain rfl := FlowEdge.original.inj hi
    exact hbefore hr (.inl (hentry.trans ha)) hleads (hvertices.symm ▸ hsub₁)
  · obtain ⟨i, j, r, -, hj, hr, -, hexit, hvertices⟩ := exists_isRegion hc hsub₂.subset hsecond
    obtain rfl := FlowEdge.original.inj hj
    exact hbefore hr (.inr (hexit.trans hb)) hleads (hvertices.symm ▸ hsub₂)

/-- In the numbers of the flow graph. -/
theorem Numbers.pick_uncrossed (h : Numbers g root fg originals leaving)
    (hterm : (augmented g root).Terminating (some root) none) {b b' : Boundary}
    (hb : b ∈ pickSmallest (ordered fg)) (hb' : b' ∈ ordered fg) :
    crosses b.2.2 b'.2.2 = false := by
  obtain ⟨hmem, hfirst⟩ := (mem_pickSmallest (ordered_sorted fg)).1 hb
  have hmem := mem_sortByKey.1 hmem
  have hmem' := mem_sortByKey.1 hb'
  obtain ⟨c, -, hc⟩ := h.exists_names hmem
  obtain ⟨d, -, hd⟩ := h.exists_names hmem'
  obtain ⟨e, he, hid⟩ := hc.entry
  obtain ⟨f, hf, hid'⟩ := hc.exit
  have hleads := (or_congr (h.firstAt_iff he hc) (h.firstAt_iff hf hc)).1 hfirst
  rw [hid, hid'] at hleads
  rw [← Bool.not_eq_true, h.crosses_iff hmem hmem' hc hd]
  exact not_crosses_of_leads hterm (hc.isCandidate h hmem) hleads (hd.isCandidate h hmem')

/-- Where every node reaches the synthetic exit, what is picked is nested with, or disjoint from,
every candidate, and the filter removes nothing. -/
theorem computeSese_laminar (g : GraphView NodeId EdgeId) (root : NodeId)
    (hterm : (augmented g root).Terminating (some root) none) :
    ∃ fg candidates, sortedCandidates g root = .ok (fg, candidates) ∧
      (∀ c ∈ pickSmallest candidates, ∀ d ∈ candidates,
        c.2.2 ⊆ d.2.2 ∨ d.2.2 ⊆ c.2.2 ∨ c.2.2.Disjoint d.2.2) ∧
      retainLaminar candidates (pickSmallest candidates) = pickSmallest candidates ∧
      computeSese g root = buildTree fg (sortByKey selectedKey (pickSmallest candidates)) := by
  obtain ⟨fg, originals, leaving, hbuild, h⟩ := buildFlowgraph_spec g root
  have hrun := h.sortedCandidates_eq hbuild
  have huncrossed : ∀ c ∈ pickSmallest (ordered fg), ∀ d ∈ ordered fg,
      crosses c.2.2 d.2.2 = false := fun c hc d hd => h.pick_uncrossed hterm hc hd
  have hretain := retainLaminar_eq_self huncrossed
  refine ⟨fg, ordered fg, hrun, ?_, hretain, ?_⟩
  · intro c hc d hd
    have hcross := huncrossed c hc d hd
    rw [← Bool.not_eq_true, crosses_iff] at hcross
    by_cases hcommon : ({x | x ∈ c.2.2} ∩ {x | x ∈ d.2.2}).Nonempty
    · rcases nested_of_common hcommon hcross with hsub | hsub
      · exact .inl hsub
      · exact .inr (.inl hsub)
    · refine .inr (.inr fun x hxc hxd => ?_)
      exact hcommon ⟨x, hxc, hxd⟩
  · rw [computeSese_eq_buildTree hrun, selectCanonical_eq, hretain]

theorem computeSese_laminar_sandwich :
    ∃ fg candidates, sortedCandidates sandwich 0 = .ok (fg, candidates) ∧
      (∀ c ∈ pickSmallest candidates, ∀ d ∈ candidates,
        c.2.2 ⊆ d.2.2 ∨ d.2.2 ⊆ c.2.2 ∨ c.2.2.Disjoint d.2.2) ∧
      retainLaminar candidates (pickSmallest candidates) = pickSmallest candidates ∧
      computeSese sandwich 0 = buildTree fg (sortByKey selectedKey (pickSmallest candidates)) :=
  computeSese_laminar sandwich 0 sandwich_terminates.terminating

end Sese
end Jstd
