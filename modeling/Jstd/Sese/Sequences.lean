import Jstd.Sese.Retain

/-!
# Candidates are sequences of canonical regions

`compute_sese_candidates` lists a boundary for every run of constructs that follow each other, so
there can be quadratically many.  Where every node reaches the synthetic exit they are made of few:
every candidate is, in one way only, a sequence of canonical regions of which each begins with the
edge the one before ends with, and every such sequence is a candidate.  The regions of
`compute_sese` are among those parts.
-/

namespace Jstd

open Foundation

/-! ## One candidate after another -/

namespace SeseCandidate

variable {NodeId EdgeId : Type} [LinearOrder NodeId]

/-- The nodes of both, between the entry of the first and the exit of the second. -/
def join (c d : SeseCandidate NodeId EdgeId) : SeseCandidate NodeId EdgeId where
  entryEdge := c.entryEdge
  exitEdge := d.exitEdge
  containedNodes := sortByKey (fun v => v) (c.containedNodes ++ d.containedNodes)

@[simp] theorem join_entryEdge (c d : SeseCandidate NodeId EdgeId) :
    (c.join d).entryEdge = c.entryEdge := rfl

@[simp] theorem join_exitEdge (c d : SeseCandidate NodeId EdgeId) :
    (c.join d).exitEdge = d.exitEdge := rfl

theorem join_nodes_perm (c d : SeseCandidate NodeId EdgeId) :
    (c.join d).containedNodes.Perm (c.containedNodes ++ d.containedNodes) :=
  perm_sortByKey _ _

theorem join_assoc (c d e : SeseCandidate NodeId EdgeId) :
    (c.join d).join e = c.join (d.join e) := by
  have hnodes : ((c.join d).join e).containedNodes = (c.join (d.join e)).containedNodes := by
    refine sortByKey_eq_of_perm ?_ fun _ _ _ _ heq => heq
    have hleft := (c.join_nodes_perm d).append_right e.containedNodes
    have hright := (d.join_nodes_perm e).append_left c.containedNodes
    rw [List.append_assoc] at hleft
    exact hleft.trans hright.symm
  rw [join, join, SeseCandidate.mk.injEq]
  exact ⟨rfl, rfl, hnodes⟩

/-- The parts follow each other and make up the candidate. -/
inductive Sequence : List (SeseCandidate NodeId EdgeId) → SeseCandidate NodeId EdgeId → Prop
  | single (c : SeseCandidate NodeId EdgeId) : Sequence [c] c
  | cons {r c : SeseCandidate NodeId EdgeId} {parts : List (SeseCandidate NodeId EdgeId)} :
      r.exitEdge = c.entryEdge → Sequence parts c → Sequence (r :: parts) (r.join c)

namespace Sequence

variable {parts parts' : List (SeseCandidate NodeId EdgeId)} {c d : SeseCandidate NodeId EdgeId}

theorem append (h : Sequence parts c) (h' : Sequence parts' d) (hnext : c.exitEdge = d.entryEdge) :
    Sequence (parts ++ parts') (c.join d) := by
  induction h with
  | single c => exact .cons hnext h'
  | cons hstep _ ih =>
      rw [join_assoc]
      exact .cons hstep (ih hnext)

end Sequence

end SeseCandidate

namespace Sese

open SeseCandidate

variable {NodeId EdgeId : Type} [LinearOrder NodeId] {g : GraphView NodeId EdgeId} {root : NodeId}
  {c d : SeseCandidate NodeId EdgeId} {parts parts' : List (SeseCandidate NodeId EdgeId)}

/-! ## Sequences of regions are regions -/

theorem vertices_join (c d : SeseCandidate NodeId EdgeId) :
    vertices (c.join d).containedNodes =
      vertices c.containedNodes ∪ vertices d.containedNodes := by
  ext x
  cases x with
  | none => simp
  | some v =>
      rw [Set.mem_union, some_mem_vertices, some_mem_vertices, some_mem_vertices,
        (c.join_nodes_perm d).mem_iff, List.mem_append]

theorem IsRegion.ne_nil (h : IsRegion g root c) : c.containedNodes ≠ [] := by
  obtain ⟨_, _, _, _, hborders, _⟩ := h
  exact hborders.nonempty

theorem IsRegion.join (hc : IsRegion g root c) (hd : IsRegion g root d)
    (hnext : c.exitEdge = d.entryEdge) : IsRegion g root (c.join d) := by
  obtain ⟨a, b, ha, hb, hsese⟩ := hc.isSese
  obtain ⟨b', e, hb', he, hsese'⟩ := hd.isSese
  obtain rfl := inner_eq hsese'.entry_inner hsese.exit_inner (hb'.trans (hnext.symm.trans hb.symm))
  have hdisj := hsese.disjoint_next (augmented_flow g root) hsese'
  refine ⟨a, e, ha, he, borders_iff.2 ?_, pairwise_lt_sortByKey ?_⟩
  · rw [vertices_join]
    exact hsese.comp (augmented_flow g root) hsese'
  · rw [List.map_id']
    refine List.nodup_append.2 ⟨hc.sorted.nodup, hd.sorted.nodup, ?_⟩
    rintro v hv w hw rfl
    exact Set.disjoint_left.1 hdisj (some_mem_vertices.2 hv) (some_mem_vertices.2 hw)

/-- The parts of a region are regions, so it is no part alone unless it is the whole. -/
theorem IsRegion.length_lt_join (hd : IsRegion g root d) (c : SeseCandidate NodeId EdgeId) :
    c.containedNodes.length < (c.join d).containedNodes.length := by
  rw [(c.join_nodes_perm d).length_eq, List.length_append]
  exact Nat.lt_add_of_pos_right (List.length_pos_iff.2 hd.ne_nil)

theorem isRegion_of_sequence (h : Sequence parts c) (hparts : ∀ r ∈ parts, IsRegion g root r) :
    IsRegion g root c := by
  induction h with
  | single c => exact hparts c List.mem_cons_self
  | cons hnext _ ih =>
      obtain ⟨hr, hrest⟩ := List.forall_mem_cons.1 hparts
      exact hr.join (ih hrest) hnext

/-! ## Regions are sequences of canonical ones -/

section

variable (hterm : (augmented g root).Terminating (some root) none)

include hterm

/-- A smaller region inside with the same entry leaves a region behind it. -/
theorem IsRegion.split_entry (hc : IsRegion g root c) (hd : IsRegion g root d)
    (hentry : d.entryEdge = c.entryEdge)
    (hlt : d.containedNodes.length < c.containedNodes.length) :
    ∃ e, IsRegion g root e ∧ d.exitEdge = e.entryEdge ∧ c = d.join e := by
  obtain ⟨a, b, ha, hb, hsese⟩ := hc.isSese
  obtain ⟨a', b', ha', hb', hsese'⟩ := hd.isSese
  obtain rfl := inner_eq hsese'.entry_inner hsese.entry_inner (ha'.trans (hentry.trans ha.symm))
  -- Regions that cross differ in their entries.
  have huncrossed : ¬ Crosses (vertices d.containedNodes) (vertices c.containedNodes) :=
    fun hcross => (hsese'.split_of_cross (augmented_flow g root) hterm hsese hcross).2.1 rfl
  have hsub : vertices d.containedNodes ⊆ vertices c.containedNodes := by
    rcases nested_of_common ⟨_, hsese'.entry_dst, hsese.entry_dst⟩ huncrossed with hsub | hsup
    · exact hsub
    · exact absurd (hc.length_le hd hsup) (not_le.2 hlt)
  have hne : FlowEdge.original b' ≠ .original b := by
    intro heq
    rw [heq] at hsese'
    -- One boundary has one region.
    have hsame := (hsese'.region_eq (augmented_flow g root) hterm).symm.trans
      (hsese.region_eq (augmented_flow g root) hterm)
    exact hlt.ne (hd.eq_of_vertices hc hsame ▸ rfl)
  obtain ⟨i, j, e, hi, -, he, hfrom, -, hvertices⟩ :=
    exists_isRegion hc Set.sdiff_subset (hsese.diff_of_entry hsese' hsub hne)
  obtain rfl := FlowEdge.original.inj hi
  have hnext : d.exitEdge = e.entryEdge := hb'.symm.trans hfrom.symm
  refine ⟨e, he, hnext, hc.eq_of_vertices (hd.join he hnext) ?_⟩
  rw [vertices_join, hvertices, Set.union_sdiff_cancel hsub]

/-- One with the same exit leaves a region in front of it. -/
theorem IsRegion.split_exit (hc : IsRegion g root c) (hd : IsRegion g root d)
    (hexit : d.exitEdge = c.exitEdge)
    (hlt : d.containedNodes.length < c.containedNodes.length) :
    ∃ e, IsRegion g root e ∧ e.exitEdge = d.entryEdge ∧ c = e.join d := by
  obtain ⟨a, b, ha, hb, hsese⟩ := hc.isSese
  obtain ⟨a', b', ha', hb', hsese'⟩ := hd.isSese
  obtain rfl := inner_eq hsese'.exit_inner hsese.exit_inner (hb'.trans (hexit.trans hb.symm))
  -- Regions that cross differ in both edges, and these share the exit.
  have huncrossed : ¬ Crosses (vertices d.containedNodes) (vertices c.containedNodes) :=
    fun hcross => (hsese'.split_of_cross (augmented_flow g root) hterm hsese hcross).2.2 rfl
  have hsub : vertices d.containedNodes ⊆ vertices c.containedNodes := by
    rcases nested_of_common ⟨_, hsese'.exit_src, hsese.exit_src⟩ huncrossed with hsub | hsup
    · exact hsub
    · exact absurd (hc.length_le hd hsup) (not_le.2 hlt)
  have hne : FlowEdge.original a ≠ .original a' := by
    intro heq
    rw [← heq] at hsese'
    have hsame := (hsese'.region_eq (augmented_flow g root) hterm).symm.trans
      (hsese.region_eq (augmented_flow g root) hterm)
    exact hlt.ne (hd.eq_of_vertices hc hsame ▸ rfl)
  obtain ⟨i, j, e, -, hj, he, -, hto, hvertices⟩ :=
    exists_isRegion hc Set.sdiff_subset (hsese.diff_of_exit hsese' hsub hne)
  obtain rfl := FlowEdge.original.inj hj
  have hnext : e.exitEdge = d.entryEdge := hto.trans ha'
  refine ⟨e, he, hnext, hc.eq_of_vertices (he.join hd hnext) ?_⟩
  rw [vertices_join, hvertices, Set.union_comm, Set.union_sdiff_cancel hsub]

/-- What is not canonical is two regions, one after the other. -/
theorem IsRegion.split (hc : IsRegion g root c) (hnot : ¬ IsCanonical g root c) :
    ∃ d e, IsRegion g root d ∧ IsRegion g root e ∧ d.exitEdge = e.entryEdge ∧ c = d.join e := by
  by_cases hentry : ∃ d, IsRegion g root d ∧ d.entryEdge = c.entryEdge ∧
      d.containedNodes.length < c.containedNodes.length
  · obtain ⟨d, hd, hsame, hlt⟩ := hentry
    obtain ⟨e, he, hnext, heq⟩ := hc.split_entry hterm hd hsame hlt
    exact ⟨d, e, hd, he, hnext, heq⟩
  · by_cases hexit : ∃ d, IsRegion g root d ∧ d.exitEdge = c.exitEdge ∧
        d.containedNodes.length < c.containedNodes.length
    · obtain ⟨d, hd, hsame, hlt⟩ := hexit
      obtain ⟨e, he, hnext, heq⟩ := hc.split_exit hterm hd hsame hlt
      exact ⟨e, d, he, hd, hnext, heq⟩
    · refine absurd ⟨hc, fun d hd hsame => ?_, fun d hd hsame => ?_⟩ hnot
      · exact not_lt.1 fun hlt => hentry ⟨d, hd, hsame, hlt⟩
      · exact not_lt.1 fun hlt => hexit ⟨d, hd, hsame, hlt⟩

/-- By induction on the number of nodes: both parts of a region have fewer. -/
theorem IsRegion.exists_sequence (hc : IsRegion g root c) :
    ∃ parts, Sequence parts c ∧ ∀ r ∈ parts, IsCanonical g root r := by
  induction hk : c.containedNodes.length using Nat.strong_induction_on generalizing c with
  | _ k ih =>
      by_cases hcanon : IsCanonical g root c
      · exact ⟨[c], .single c, by simpa using hcanon⟩
      · obtain ⟨d, e, hd, he, hnext, rfl⟩ := hc.split hterm hcanon
        have hlen : d.containedNodes.length + e.containedNodes.length = k := by
          rw [← List.length_append, ← (d.join_nodes_perm e).length_eq, hk]
        have hpos := List.length_pos_iff.2 hd.ne_nil
        have hpos' := List.length_pos_iff.2 he.ne_nil
        obtain ⟨parts, hparts, hcanons⟩ := ih _ (by omega) hd rfl
        obtain ⟨parts', hparts', hcanons'⟩ := ih _ (by omega) he rfl
        refine ⟨parts ++ parts', hparts.append hparts' hnext, fun r hr => ?_⟩
        rcases List.mem_append.1 hr with hr | hr
        · exact hcanons r hr
        · exact hcanons' r hr

/-! ## In one way only -/

/-- One canonical region begins at an edge. -/
theorem IsCanonical.eq_of_entry (hc : IsCanonical g root c) (hd : IsCanonical g root d)
    (hentry : c.entryEdge = d.entryEdge) : c = d := by
  obtain ⟨a, b, ha, -, hsese⟩ := hc.region.isSese
  obtain ⟨a', b', ha', -, hsese'⟩ := hd.region.isSese
  obtain rfl := inner_eq hsese'.entry_inner hsese.entry_inner (ha'.trans (hentry.symm.trans ha.symm))
  exact hc.region.eq_of_length hd.region (hc.uncrossed hterm hd.region)
    ⟨_, hsese.entry_dst, hsese'.entry_dst⟩
    (le_antisymm (hc.entry d hd.region hentry.symm) (hd.entry c hc.region hentry))

omit hterm in
/-- What follows the first part is determined. -/
theorem eq_of_join_eq {r : SeseCandidate NodeId EdgeId} (hc : IsRegion g root c)
    (hd : IsRegion g root d) (hc' : r.exitEdge = c.entryEdge) (hd' : r.exitEdge = d.entryEdge)
    (heq : r.join c = r.join d) : c = d := by
  have hperm : (r.containedNodes ++ c.containedNodes).Perm
      (r.containedNodes ++ d.containedNodes) :=
    ((r.join_nodes_perm c).symm.trans (heq ▸ .refl _)).trans (r.join_nodes_perm d)
  have hnodes : c.containedNodes = d.containedNodes :=
    hc.sorted.eq_of_mem_iff hd.sorted fun v => ((List.perm_append_left_iff _).1 hperm).mem_iff
  have hexit : c.exitEdge = d.exitEdge := by simpa using congrArg SeseCandidate.exitEdge heq
  have hentry : c.entryEdge = d.entryEdge := hc'.symm.trans hd'
  cases c
  cases d
  simp_all

/-- By induction on the sequence: the first part is the canonical region with the entry. -/
theorem sequence_unique (h : Sequence parts c) (hparts : ∀ r ∈ parts, IsCanonical g root r)
    (h' : Sequence parts' c) (hparts' : ∀ r ∈ parts', IsCanonical g root r) : parts = parts' := by
  -- A canonical region is not its first part and more.
  have hwhole : ∀ {r d : SeseCandidate NodeId EdgeId}, IsCanonical g root r → IsRegion g root d →
      ¬ IsCanonical g root (r.join d) := by
    intro r d hr hd hjoin
    exact absurd (hjoin.entry r hr.region rfl) (not_le.2 (hd.length_lt_join r))
  have hregion : ∀ {parts : List (SeseCandidate NodeId EdgeId)} {c}, Sequence parts c →
      (∀ r ∈ parts, IsCanonical g root r) → IsRegion g root c :=
    fun h hparts => isRegion_of_sequence h fun r hr => (hparts r hr).region
  induction h generalizing parts' with
  | single c =>
      have hc := hparts c List.mem_cons_self
      cases h' with
      | single _ => rfl
      | cons hnext hrest =>
          obtain ⟨hr, htail⟩ := List.forall_mem_cons.1 hparts'
          exact absurd hc (hwhole hr (hregion hrest htail))
  | @cons r c₁ parts₁ hnext hseq ih =>
      obtain ⟨hr, htail⟩ := List.forall_mem_cons.1 hparts
      generalize hc : r.join c₁ = c at h'
      cases h' with
      | single _ =>
          subst hc
          exact absurd (hparts' _ List.mem_cons_self) (hwhole hr (hregion hseq htail))
      | @cons r' c₂ parts₂ hnext' hseq' =>
          obtain ⟨hr', htail'⟩ := List.forall_mem_cons.1 hparts'
          have hsame : r = r' := by
            refine hr.eq_of_entry hterm hr' ?_
            simpa using congrArg SeseCandidate.entryEdge hc
          subst hsame
          have hrest := eq_of_join_eq (hregion hseq htail) (hregion hseq' htail') hnext hnext' hc
          subst hrest
          rw [ih htail hseq' htail']

end

/-! ## What the analyses list -/

variable [LinearOrder EdgeId]

/-- Where every node reaches the synthetic exit, the candidates are the sequences of canonical
regions, each in one way.  The canonical ones can be told from the list, and the regions of the tree
are among them. -/
theorem compute_sequences (g : GraphView NodeId EdgeId) (root : NodeId)
    (hterm : (augmented g root).Terminating (some root) none) :
    ∃ cs tree, computeSeseCandidates g root = .ok cs ∧ computeSese g root = .ok tree ∧
      (∀ c, c ∈ cs ↔ ∃! parts, Sequence parts c ∧ ∀ r ∈ parts, IsCanonical g root r) ∧
      (∀ c, Canonical cs c ↔ IsCanonical g root c) ∧
      ∀ triple ∈ regionTriples tree, ∃ r, IsCanonical g root r ∧ triple = candidateTriple r := by
  obtain ⟨cs, hcs, hmem, -⟩ := computeSeseCandidates_spec g root
  obtain ⟨ids, sets, selected, htree, -, hselected, -⟩ := computeSese_spec g root
  have hregion : ∀ c, c ∈ cs ↔ IsRegion g root c :=
    fun c => (hmem c).trans (isRegion_iff hterm).symm
  refine ⟨cs, _, hcs, htree, fun c => ?_, fun c => canonical_iff hregion, fun triple htriple => ?_⟩
  · rw [hregion c]
    constructor
    · intro hc
      obtain ⟨parts, hparts, hcanon⟩ := hc.exists_sequence hterm
      refine ⟨parts, ⟨hparts, hcanon⟩, ?_⟩
      rintro parts' ⟨hparts', hcanon'⟩
      exact sequence_unique hterm hparts' hcanon' hparts hcanon
    · rintro ⟨parts, ⟨hparts, hcanon⟩, -⟩
      exact isRegion_of_sequence hparts fun r hr => (hcanon r hr).region
  · rw [regionTriples_treeOf] at htriple
    obtain ⟨r, hr, rfl⟩ := List.mem_map.1 htriple
    exact ⟨r, ((hselected r).1 hr).isCanonical hterm, rfl⟩

theorem compute_sequences_sandwich :
    ∃ cs tree, computeSeseCandidates sandwich 0 = .ok cs ∧ computeSese sandwich 0 = .ok tree ∧
      (∀ c, c ∈ cs ↔ ∃! parts, Sequence parts c ∧ ∀ r ∈ parts, IsCanonical sandwich 0 r) ∧
      (∀ c, Canonical cs c ↔ IsCanonical sandwich 0 c) ∧
      ∀ triple ∈ regionTriples tree, ∃ r, IsCanonical sandwich 0 r ∧ triple = candidateTriple r :=
  compute_sequences sandwich 0 sandwich_terminates.terminating

/-! ## Whether there are any -/

/-- The first candidate in the order of selection is always kept. -/
theorem exists_isSelected (hterm : (augmented g root).Terminating (some root) none)
    {cs : List (SeseCandidate NodeId EdgeId)} (hmem : ∀ c, c ∈ cs ↔ IsCandidate g root c)
    (hne : cs ≠ []) : ∃ c, IsSelected g root c := by
  obtain ⟨c, hc, hleast⟩ := cs.toFinset.exists_min_image sizeKey (by simpa using hne)
  have hc := (hmem c).1 (List.mem_toFinset.1 hc)
  have hleads : ∀ e, LeadsAt g root e c := fun e d hd _ =>
    not_lt.2 (hleast d (List.mem_toFinset.2 ((hmem d).2 hd)))
  exact ⟨c, hc, .inl (hleads _), fun d hd => not_crosses_of_leads hterm hc (.inl (hleads _)) hd⟩

omit [LinearOrder NodeId] [LinearOrder EdgeId] in
theorem root_treeOf (ids : List NodeId) (sets : List (List Nat))
    (cs : List (SeseCandidate NodeId EdgeId)) :
    (treeOf ids sets cs).root =
      .ok { place sets 0 (rootRegion ids) with nodes := ownedBy sets ids.zipIdx 0 } := by
  rw [SeseTree.root, treeOf, List.mapIdx_cons]
  rfl

/-- `has_nontrivial_regions` tells whether there are regions, in the tree or in the graph, and `root`
never fails: it is the region without a boundary that holds all reachable nodes. -/
theorem computeSese_nontrivial (g : GraphView NodeId EdgeId) (root : NodeId)
    (hterm : (augmented g root).Terminating (some root) none) :
    ∃ cs tree region, computeSeseCandidates g root = .ok cs ∧ computeSese g root = .ok tree ∧
      (tree.hasNontrivialRegions = true ↔ cs ≠ []) ∧
      (tree.hasNontrivialRegions = true ↔ ∃ c, IsRegion g root c) ∧ tree.root = .ok region ∧
      region.parent = none ∧ region.entryEdge = none ∧ region.exitEdge = none ∧
      region.containedNodes.Pairwise (· < ·) ∧
      ∀ v, v ∈ region.containedNodes ↔ g.Reachable root v := by
  obtain ⟨cs, hcs, hmem, -⟩ := computeSeseCandidates_spec g root
  obtain ⟨fg, originals, leaving, selected, h, hselected, htree⟩ := computeSese_eq g root
  have hkept : ∀ c, c ∈ selected ↔ IsSelected g root c := fun c => mem_names_iff h hselected
  have hlen : (treeOf fg.ids (setsOf fg (selectCanonical (ordered fg))) selected).regions.length =
      selected.length + 1 := by
    simp [treeOf]
  have hsome : (treeOf fg.ids (setsOf fg (selectCanonical (ordered fg)))
      selected).hasNontrivialRegions = true ↔ cs ≠ [] := by
    -- There is a region besides the root exactly when something is selected.
    rw [SeseTree.hasNontrivialRegions, decide_eq_true_eq, hlen, gt_iff_lt,
      Nat.lt_add_left_iff_pos, List.length_pos_iff_exists_mem]
    constructor
    · rintro ⟨c, hc⟩
      exact List.ne_nil_of_mem ((hmem c).2 ((hkept c).1 hc).candidate)
    · intro hne
      obtain ⟨c, hc⟩ := exists_isSelected hterm hmem hne
      exact ⟨c, (hkept c).2 hc⟩
  refine ⟨cs, _, _, hcs, htree, hsome, hsome.trans ?_, root_treeOf _ _ _, rfl, rfl, rfl, h.ids_lt,
    h.mem_ids⟩
  constructor
  · intro hne
    obtain ⟨c, hc⟩ := List.exists_mem_of_ne_nil cs hne
    exact ⟨c, (isRegion_iff hterm).2 ((hmem c).1 hc)⟩
  · rintro ⟨c, hc⟩
    exact List.ne_nil_of_mem ((hmem c).2 ((isRegion_iff hterm).1 hc))

theorem computeSese_nontrivial_sandwich :
    ∃ cs tree region, computeSeseCandidates sandwich 0 = .ok cs ∧
      computeSese sandwich 0 = .ok tree ∧
      (tree.hasNontrivialRegions = true ↔ cs ≠ []) ∧
      (tree.hasNontrivialRegions = true ↔ ∃ c, IsRegion sandwich 0 c) ∧ tree.root = .ok region ∧
      region.parent = none ∧ region.entryEdge = none ∧ region.exitEdge = none ∧
      region.containedNodes.Pairwise (· < ·) ∧
      ∀ v, v ∈ region.containedNodes ↔ sandwich.Reachable 0 v :=
  computeSese_nontrivial sandwich 0 sandwich_terminates.terminating

end Sese
end Jstd
