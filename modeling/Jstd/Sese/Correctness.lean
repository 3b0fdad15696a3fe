import Jstd.Sese.Canonical
import Jstd.Sese.Decomposition

/-!
# What `compute_sese` returns

The regions of the tree are the selected candidates (`IsSelected`).  Three questions about them are
answered: when they are closed, when they decompose the graph, and when they are all the canonical
regions.
-/

namespace Jstd
namespace Sese

open Foundation

variable {NodeId EdgeId : Type} [LinearOrder NodeId] [LinearOrder EdgeId]
  {g : GraphView NodeId EdgeId} {root : NodeId} {fg : Flowgraph NodeId EdgeId}
  {originals : List (GraphEdge NodeId EdgeId)} {leaving : List NodeId}

/-! ## The run -/

theorem exists_forall₂ {α β : Type} {R : α → β → Prop} (xs : List α)
    (h : ∀ x ∈ xs, ∃ y, R x y) : ∃ ys, List.Forall₂ R xs ys := by
  induction xs with
  | nil => exact ⟨[], .nil⟩
  | cons x xs ih =>
      obtain ⟨y, hy⟩ := h x List.mem_cons_self
      obtain ⟨ys, hys⟩ := ih fun z hz => h z (List.mem_cons_of_mem x hz)
      exact ⟨y :: ys, .cons hy hys⟩

theorem exists_of_forall₂ {α β : Type} {R : α → β → Prop} {xs : List α} {ys : List β}
    (h : List.Forall₂ R xs ys) : ∀ y ∈ ys, ∃ x ∈ xs, R x y := by
  induction h with
  | nil => simp
  | @cons x y xs ys hxy _ ih =>
      intro z hz
      rcases List.mem_cons.1 hz with rfl | hz
      · exact ⟨x, List.mem_cons_self, hxy⟩
      · obtain ⟨w, hw, hwz⟩ := ih z hz
        exact ⟨w, List.mem_cons_of_mem x hw, hwz⟩

/-- Different elements related to different ones. -/
theorem nodup_of_forall₂ {α β : Type} {R : α → β → Prop} {xs : List α} {ys : List β}
    (h : List.Forall₂ R xs ys) (hxs : xs.Nodup)
    (hinj : ∀ x ∈ xs, ∀ x' ∈ xs, ∀ y, R x y → R x' y → x = x') : ys.Nodup := by
  induction h with
  | nil => exact List.nodup_nil
  | @cons x y xs ys hxy htail ih =>
      rw [List.nodup_cons] at hxs
      refine List.nodup_cons.2 ⟨fun hy => ?_, ih hxs.2 fun z hz z' hz' =>
        hinj z (List.mem_cons_of_mem x hz) z' (List.mem_cons_of_mem x hz')⟩
      obtain ⟨w, hw, hwy⟩ := exists_of_forall₂ htail y hy
      exact hxs.1 (hinj x List.mem_cons_self w (List.mem_cons_of_mem x hw) y hxy hwy ▸ hw)

/-- Increasing lists that do not cross, the longer one first, are disjoint, nested or equal. -/
theorem nested_of_not_crosses {xs ys : List Nat} (hxs : xs.Pairwise (· < ·))
    (hys : ys.Pairwise (· < ·)) (hlen : ys.length ≤ xs.length) (h : crosses xs ys = false) :
    Disjoint {v | v ∈ xs} {v | v ∈ ys} ∨ {v | v ∈ ys} ⊂ {v | v ∈ xs} ∨ xs = ys := by
  have heq : xs ⊆ ys → xs = ys := by
    intro hsub
    have hfinset : xs.toFinset = ys.toFinset := by
      refine Finset.eq_of_subset_of_card_le (fun v hv => ?_) ?_
      · exact List.mem_toFinset.2 (hsub (List.mem_toFinset.1 hv))
      · rwa [List.toFinset_card_of_nodup hxs.nodup, List.toFinset_card_of_nodup hys.nodup]
    exact hxs.eq_of_mem_iff hys fun v => by rw [← List.mem_toFinset, hfinset, List.mem_toFinset]
  rw [← Bool.not_eq_true, crosses_iff] at h
  by_cases hcommon : ({v | v ∈ xs} ∩ {v | v ∈ ys}).Nonempty
  · rcases nested_of_common hcommon h with hsub | hsub
    · exact .inr (.inr (heq hsub))
    · by_cases hsub' : xs ⊆ ys
      · exact .inr (.inr (heq hsub'))
      · exact .inr (.inl ⟨hsub, hsub'⟩)
  · exact .inl (Set.disjoint_iff_inter_eq_empty.2 (Set.not_nonempty_iff_eq_empty.1 hcommon))

/-- The candidates in the order of selection. -/
noncomputable def ordered (fg : Flowgraph NodeId EdgeId) : List Boundary :=
  sortByKey boundaryKey (boundaries fg)

omit [LinearOrder NodeId] [LinearOrder EdgeId] in
theorem ordered_sorted (fg : Flowgraph NodeId EdgeId) :
    (ordered fg).Pairwise fun b c => boundaryKey b < boundaryKey c := by
  refine pairwise_lt_sortByKey ((boundaries_nodup fg).map_on fun b hb c hc heq => ?_)
  have hedges := toLex.injective (Prod.mk.inj (toLex.injective heq)).2
  exact boundaries_inj hb hc (Prod.mk.inj hedges).1 (Prod.mk.inj hedges).2

/-- The prefix of original edges is as long as `original_count`. -/
theorem Numbers.takeWhile_length (h : Numbers g root fg originals leaving) :
    (fg.edges.takeWhile fun edge => edge.original.isSome).length = fg.originalCount := by
  have hfirst : ∀ edge ∈ (originals.map FlowEdge.original).map (numberEdge root fg.ids),
      edge.original.isSome = true := by
    intro edge hedge
    obtain ⟨f, hf, rfl⟩ := List.mem_map.1 hedge
    obtain ⟨e, -, rfl⟩ := List.mem_map.1 hf
    rfl
  rw [h.edges, h.count, edgeNames, List.append_assoc, List.map_append,
    List.takeWhile_append_of_pos hfirst]
  cases leaving with
  | nil => simp [numberEdge, FlowEdge.edgeId]
  | cons v leaving => simp [numberEdge, FlowEdge.edgeId]

/-- `compute_sese` up to `candidates.sort_by_key(..)`. -/
def sortedCandidates (g : GraphView NodeId EdgeId) (root : NodeId) :
    Except Panic (Flowgraph NodeId EdgeId × List Boundary) := do
  let fg ← buildFlowgraph g root
  let originalCount := (fg.edges.takeWhile fun edge => edge.original.isSome).length
  let cycleClasses ← jppCycleClasses fg.edges fg.size fg.entry
  let candidates ← filterMapChecked (fun (a, b) => regionBetween fg cycleClasses a b)
    (boundaryPairs originalCount)
  return (fg, sortByKey boundaryKey candidates)

theorem computeSese_eq_buildTree {candidates : List Boundary}
    (h : sortedCandidates g root = .ok (fg, candidates)) :
    computeSese g root = buildTree fg (selectCanonical candidates) := by
  have hcompute : computeSese g root =
      (sortedCandidates g root >>= fun p => buildTree p.1 (selectCanonical p.2)) := by
    simp only [computeSese, sortedCandidates, bind_assoc, pure_bind]
  rw [hcompute, h]
  rfl

theorem Numbers.sortedCandidates_eq (h : Numbers g root fg originals leaving)
    (hbuild : buildFlowgraph g root = .ok fg) :
    sortedCandidates g root = .ok (fg, ordered fg) := by
  obtain ⟨classes, hclasses, hseparates⟩ := h.separates
  rw [sortedCandidates, hbuild]
  show (jppCycleClasses fg.edges fg.size fg.entry >>= _) = _
  rw [hclasses]
  show (filterMapChecked _ (boundaryPairs _) >>= _) = _
  rw [h.takeWhile_length, filterMapChecked_of_ok _ (h.regionBetween_eq hseparates)]
  rfl

/-- The sets of the regions. -/
def setsOf (fg : Flowgraph NodeId EdgeId) (selected : List Boundary) : List (List Nat) :=
  List.range fg.ids.length :: selected.map fun b => b.2.2

theorem computeSese_eq (g : GraphView NodeId EdgeId) (root : NodeId) :
    ∃ fg originals leaving cs, Numbers g root fg originals leaving ∧
      List.Forall₂ (Names root fg originals) (selectCanonical (ordered fg)) cs ∧
      computeSese g root =
        .ok (treeOf fg.ids (setsOf fg (selectCanonical (ordered fg))) cs) := by
  obtain ⟨fg, originals, leaving, hbuild, h⟩ := buildFlowgraph_spec g root
  have hmem : ∀ b ∈ selectCanonical (ordered fg), b ∈ boundaries fg := fun b hb =>
    mem_sortByKey.1 ((mem_selectCanonical (ordered_sorted fg)).1 hb).mem
  obtain ⟨cs, hcs⟩ := exists_forall₂ (R := Names root fg originals) (selectCanonical (ordered fg))
    fun b hb => by
      obtain ⟨c, -, hc⟩ := h.exists_names (hmem b hb)
      exact ⟨c, hc⟩
  refine ⟨fg, originals, leaving, cs, h, hcs, ?_⟩
  rw [computeSese_eq_buildTree (h.sortedCandidates_eq hbuild)]
  exact buildTree_spec h hcs fun b hb u => lt_of_mem_boundary (hmem b hb)

section

variable {cs : List (SeseCandidate NodeId EdgeId)} (h : Numbers g root fg originals leaving)
  (hcs : List.Forall₂ (Names root fg originals) (selectCanonical (ordered fg)) cs)

omit [LinearOrder NodeId] [LinearOrder EdgeId] in
theorem mem_selected {b : Boundary} :
    b ∈ selectCanonical (ordered fg) ↔ b ∈ boundaries fg ∧ Kept (ordered fg) b := by
  rw [mem_selectCanonical (ordered_sorted fg)]
  exact ⟨fun hb => ⟨mem_sortByKey.1 hb.mem, hb⟩, fun hb => hb.2⟩

include h

omit h [LinearOrder NodeId] [LinearOrder EdgeId] in
theorem boundary_sorted {b : Boundary} (hb : b ∈ boundaries fg) : b.2.2.Pairwise (· < ·) := by
  rw [(mem_boundaries.1 hb).2.2]
  exact List.pairwise_lt_range.filter _

/-- Region 0 is not one of the others: the root is in no candidate. -/
theorem entry_notMem {b : Boundary} (hb : b ∈ boundaries fg) : fg.entry ∉ b.2.2 := by
  obtain ⟨⟨hlt, -⟩, hcand, hnodes⟩ := mem_boundaries.1 hb
  obtain ⟨e, he⟩ := h.exists_of_lt hlt
  rw [hnodes, mem_between h.inBounds (h.isEdge_of_original he) hcand.postdominates]
  exact hcand.root_notMem

theorem boundary_nonempty {b : Boundary} (hb : b ∈ boundaries fg) : b.2.2 ≠ [] := by
  obtain ⟨⟨hlt, -⟩, hcand, hnodes⟩ := mem_boundaries.1 hb
  obtain ⟨e, he⟩ := h.exists_of_lt hlt
  obtain ⟨v, hv⟩ := hcand.nonempty
  refine List.ne_nil_of_mem (a := v) ?_
  rw [hnodes, mem_between h.inBounds (h.isEdge_of_original he) hcand.postdominates]
  exact hv

/-- The selected sets are nested as the tree needs it. -/
theorem selected_family :
    Family fg.ids.length (setsOf fg (selectCanonical (ordered fg))) := by
  have hset : ∀ s ∈ setsOf fg (selectCanonical (ordered fg)), s = List.range fg.ids.length ∨
      ∃ b ∈ boundaries fg, s = b.2.2 := by
    intro s hs
    rcases List.mem_cons.1 hs with rfl | hs
    · exact .inl rfl
    · obtain ⟨b, hb, rfl⟩ := List.mem_map.1 hs
      exact .inr ⟨b, (mem_selected.1 hb).1, rfl⟩
  constructor
  · intro s hs
    rcases hset s hs with rfl | ⟨b, hb, rfl⟩
    · exact List.nodup_range
    · exact (boundary_sorted hb).nodup
  · intro s hs
    rcases hset s hs with rfl | ⟨b, hb, rfl⟩
    · exact List.ne_nil_of_mem (List.mem_range.2 h.entry_lt)
    · exact boundary_nonempty h hb
  · rfl
  · intro s hs v hv
    rcases hset s hs with rfl | ⟨b, hb, rfl⟩
    · exact List.mem_range.1 hv
    · exact lt_of_mem_boundary hb hv
  · intro i j s t hij hs ht
    obtain ⟨j, rfl⟩ := Nat.exists_eq_succ_of_ne_zero (Nat.ne_zero_of_lt hij)
    rw [setsOf, List.getElem?_cons_succ, List.getElem?_map] at ht
    obtain ⟨b, hb, rfl⟩ := Option.map_eq_some_iff.1 ht
    have hbmem := (mem_selected.1 (List.mem_of_getElem? hb)).1
    cases i with
    | zero =>
        obtain rfl : List.range fg.ids.length = s := Option.some.inj hs
        refine .inr (.inl ⟨fun v hv => List.mem_range.2 (lt_of_mem_boundary hbmem hv), fun hsub => ?_⟩)
        exact entry_notMem h hbmem (hsub (List.mem_range.2 h.entry_lt))
    | succ i =>
        rw [setsOf, List.getElem?_cons_succ, List.getElem?_map] at hs
        obtain ⟨b', hb', rfl⟩ := Option.map_eq_some_iff.1 hs
        obtain ⟨hbmem', hkept⟩ := mem_selected.1 (List.mem_of_getElem? hb')
        refine nested_of_not_crosses (boundary_sorted hbmem') (boundary_sorted hbmem) ?_
          (hkept.uncrossed b (mem_sortByKey.2 hbmem))
        obtain ⟨hi, rfl⟩ := List.getElem?_eq_some_iff.1 hb'
        obtain ⟨hj, rfl⟩ := List.getElem?_eq_some_iff.1 hb
        -- The selection goes by size: what comes later is no larger.
        have hkey := List.pairwise_iff_getElem.1 (selectCanonical_sorted (ordered_sorted fg)) i j hi hj
          (Nat.lt_of_succ_lt_succ hij)
        rcases Prod.Lex.toLex_lt_toLex.1 hkey with hlt | ⟨heq, -⟩
        · exact (OrderDual.toDual_lt_toDual.1 hlt).le
        · exact (OrderDual.toDual_inj.1 heq).ge

include hcs

theorem mem_names_iff {c : SeseCandidate NodeId EdgeId} : c ∈ cs ↔ IsSelected g root c := by
  constructor
  · intro hc
    obtain ⟨b, hb, hnames⟩ := exists_of_forall₂ hcs c hc
    obtain ⟨hb, hkept⟩ := mem_selected.1 hb
    exact (h.kept_iff hb hnames).1 hkept
  · intro hc
    obtain ⟨b, hb, hnames⟩ := h.exists_boundary hc.candidate
    have hselected := mem_selected.2 ⟨hb, (h.kept_iff hb hnames).2 hc⟩
    obtain ⟨d, hd, hnames'⟩ := exists_of_forall₂ hcs.flip b hselected
    rwa [hnames.unique hnames']

theorem names_nodup : cs.Nodup := by
  refine nodup_of_forall₂ hcs ?_ fun b hb b' hb' c hc hc' =>
    h.names_inj (mem_selected.1 hb).1 (mem_selected.1 hb').1 hc hc'
  exact (selectCanonical_sorted (ordered_sorted fg)).imp fun hlt heq => hlt.ne (by rw [heq])

omit h [LinearOrder NodeId] [LinearOrder EdgeId] in
theorem selected_numbered :
    Numbered fg.ids root (setsOf fg (selectCanonical (ordered fg))) cs := by
  have hrange : (List.range fg.ids.length).map (fun u => fg.ids.getD u root) = fg.ids := by
    refine List.ext_getElem (by simp) fun i _ hi => ?_
    simp [List.getElem?_eq_getElem hi]
  have hrest : cs.map (fun c => c.containedNodes) = (selectCanonical (ordered fg)).map
      fun b => b.2.2.map fun u => fg.ids.getD u root := by
    generalize selectCanonical (ordered fg) = selected at hcs
    induction hcs with
    | nil => rfl
    | cons hc _ ih => rw [List.map_cons, List.map_cons, hc.nodes, ih]
  rw [Numbered, setsOf, List.map_cons, List.map_cons, hrange, List.map_map, List.map_map]
  exact congrArg _ hrest

end

/-- The tree is built of the selected candidates; it decomposes when they differ in their nodes. -/
theorem computeSese_spec (g : GraphView NodeId EdgeId) (root : NodeId) :
    ∃ ids sets cs, computeSese g root = .ok (treeOf ids sets cs) ∧ cs.Nodup ∧
      (∀ c, c ∈ cs ↔ IsSelected g root c) ∧
      (Decomposes (treeOf ids sets cs) ↔ ∀ c d, IsSelected g root c → IsSelected g root d →
        c.containedNodes = d.containedNodes → c = d) := by
  obtain ⟨fg, originals, leaving, cs, h, hcs, hrun⟩ := computeSese_eq g root
  have hmem := fun c => mem_names_iff h hcs (c := c)
  have hnodup := names_nodup h hcs
  have hnum := selected_numbered hcs
  have hfamily := selected_family h
  refine ⟨_, _, cs, hrun, hnodup, hmem, (hfamily.decomposes_iff h.ids_nodup hnum).trans ?_⟩
  have hids : fg.ids ∉ cs.map fun c => c.containedNodes := by
    intro hroot
    obtain ⟨c, hc, hnodes⟩ := List.mem_map.1 hroot
    obtain ⟨e, f, -, -, hcand, -, hregion⟩ := ((hmem c).1 hc).candidate
    refine hcand.root_notMem ((hregion root).1 ?_)
    rw [hnodes]
    exact (h.mem_ids root).2 .refl
  rw [List.nodup_cons, and_iff_right hids]
  constructor
  · intro hdistinct c d hc hd heq
    exact List.inj_on_of_nodup_map hdistinct ((hmem c).2 hc) ((hmem d).2 hd) heq
  · exact fun hdistinct => hnodup.map_on fun c hc d hd =>
      hdistinct c d ((hmem c).1 hc) ((hmem d).1 hd)

/-! ## Regions as triples -/

/-- `(entry_edge, exit_edge, contained_nodes)` of every region but region 0. -/
def regionTriples (tree : SeseTree NodeId EdgeId) :
    List (Option EdgeId × Option EdgeId × List NodeId) :=
  tree.regions.tail.map fun region => (region.entryEdge, region.exitEdge, region.containedNodes)

def candidateTriple (c : SeseCandidate NodeId EdgeId) :
    Option EdgeId × Option EdgeId × List NodeId :=
  (some c.entryEdge, some c.exitEdge, c.containedNodes)

omit [LinearOrder NodeId] [LinearOrder EdgeId] in
theorem candidateTriple_injective :
    Function.Injective fun c : SeseCandidate NodeId EdgeId => candidateTriple c := by
  intro c d heq
  cases c
  cases d
  simpa [candidateTriple] using heq

omit [LinearOrder NodeId] [LinearOrder EdgeId] in
theorem regionTriples_treeOf (ids : List NodeId) (sets : List (List Nat))
    (cs : List (SeseCandidate NodeId EdgeId)) :
    regionTriples (treeOf ids sets cs) = cs.map candidateTriple := by
  rw [regionTriples, treeOf, List.mapIdx_cons, List.tail_cons]
  refine List.ext_getElem? fun i => ?_
  rw [List.getElem?_map, List.getElem?_mapIdx, List.getElem?_map, List.getElem?_map]
  cases cs[i]? with
  | none => rfl
  | some c => rfl

/-! ## Closed regions -/

/-- Every candidate, and every region but region 0, has its boundary edges and no others on its
border. -/
structure AllClosed (g : GraphView NodeId EdgeId) (root : NodeId)
    (cs : List (SeseCandidate NodeId EdgeId)) (tree : SeseTree NodeId EdgeId) : Prop where
  candidates : ∀ c ∈ cs, Closed g root c.entryEdge c.exitEdge c.containedNodes
  regions : ∀ region ∈ tree.regions.tail, ∃ a b, region.entryEdge = some a ∧
    region.exitEdge = some b ∧ Closed g root a b region.containedNodes

omit [LinearOrder EdgeId] in
theorem candidates_closed_iff :
    (∀ c, IsCandidate g root c → Closed g root c.entryEdge c.exitEdge c.containedNodes) ↔
      ∀ a b, (augmented g root).IsCandidate (some root) none (.original a) (.original b) →
        Returns g root a b := by
  constructor
  · intro hall a b hcand
    obtain ⟨c, ha, hb, hc⟩ := exists_isCandidate hcand
    have hclosed := hall c hc
    obtain ⟨e, f, he, hf, hcand', -, hregion⟩ := hc
    obtain rfl := inner_eq hcand'.entry_inner hcand.entry_inner (he.trans ha.symm)
    obtain rfl := inner_eq hcand'.exit_inner hcand.exit_inner (hf.trans hb.symm)
    rw [← he, ← hf] at hclosed
    exact (closed_iff hcand hregion).1 hclosed
  · rintro hreturns c ⟨e, f, he, hf, hcand, -, hregion⟩
    rw [← he, ← hf]
    exact (closed_iff hcand hregion).2 (hreturns e f hcand)

/-- The regions of the tree are candidates. -/
theorem allClosed_iff {cs selected : List (SeseCandidate NodeId EdgeId)} {ids : List NodeId}
    {sets : List (List Nat)} (hmem : ∀ c, c ∈ cs ↔ IsCandidate g root c)
    (hselected : ∀ c, c ∈ selected ↔ IsSelected g root c) :
    AllClosed g root cs (treeOf ids sets selected) ↔
      ∀ c, IsCandidate g root c → Closed g root c.entryEdge c.exitEdge c.containedNodes := by
  constructor
  · exact fun hall c hc => hall.candidates c ((hmem c).2 hc)
  · intro hall
    refine ⟨fun c hc => hall c ((hmem c).1 hc), fun region hregion => ?_⟩
    have htriple : (region.entryEdge, region.exitEdge, region.containedNodes) ∈
        regionTriples (treeOf ids sets selected) := List.mem_map_of_mem hregion
    rw [regionTriples_treeOf] at htriple
    obtain ⟨c, hc, heq⟩ := List.mem_map.1 htriple
    obtain ⟨hentry, hrest⟩ := Prod.mk.inj heq
    obtain ⟨hexit, hnodes⟩ := Prod.mk.inj hrest
    refine ⟨c.entryEdge, c.exitEdge, hentry.symm, hexit.symm, ?_⟩
    rw [← hnodes]
    exact hall c ((hselected c).1 hc).candidate

/-- The regions reported are closed exactly when, between the edges of every candidate, control
always comes back to the exit edge. -/
theorem computeSese_allClosed_iff (g : GraphView NodeId EdgeId) (root : NodeId) :
    ∃ cs tree, computeSeseCandidates g root = .ok cs ∧ computeSese g root = .ok tree ∧
      (AllClosed g root cs tree ↔ ∀ a b, (augmented g root).IsCandidate (some root) none
        (.original a) (.original b) → Returns g root a b) := by
  obtain ⟨cs, hcs, hmem, -⟩ := computeSeseCandidates_spec g root
  obtain ⟨ids, sets, selected, htree, -, hselected, -⟩ := computeSese_spec g root
  exact ⟨cs, _, hcs, htree, (allClosed_iff hmem hselected).trans candidates_closed_iff⟩

/-- `0 → 1 → 2`, and `1 → 3 ⇄ 4` without a way on. -/
def trap : GraphView Nat Nat :=
  .ofEdges [⟨0, 0, 1⟩, ⟨1, 1, 2⟩, ⟨2, 1, 3⟩, ⟨3, 3, 4⟩, ⟨4, 4, 3⟩] (by decide)

/-- The loop is entered from inside a region. -/
theorem trap_not_allClosed :
    ∃ cs tree, computeSeseCandidates trap 0 = .ok cs ∧ computeSese trap 0 = .ok tree ∧
      ¬ AllClosed trap 0 cs tree := by
  obtain ⟨ids, sets, selected, htree, -⟩ := computeSese_spec trap 0
  have hcs : computeSeseCandidates trap 0 = .ok [⟨0, 1, [1]⟩, ⟨3, 4, [4]⟩] := by decide +kernel
  have h01 : trap.Edge 0 1 := ⟨⟨0, 0, 1⟩, by decide, rfl, rfl⟩
  have h13 : trap.Edge 1 3 := ⟨⟨2, 1, 3⟩, by decide, rfl, rfl⟩
  refine ⟨_, _, hcs, htree, fun h => ?_⟩
  have hclosed := h.candidates ⟨0, 1, [1]⟩ (by decide) ⟨2, 1, 3⟩ (by decide) (.single h01)
    (.tail (.single h01) h13)
  exact absurd (hclosed.2 (by decide) (by decide)) (by decide)

/-! ## The decomposition -/

/-- The tree decomposes the graph exactly when no two selected candidates have the same nodes. -/
theorem computeSese_decomposes_iff (g : GraphView NodeId EdgeId) (root : NodeId) :
    ∃ tree, computeSese g root = .ok tree ∧ (Decomposes tree ↔
      ∀ c d, IsSelected g root c → IsSelected g root d →
        c.containedNodes = d.containedNodes → c = d) := by
  obtain ⟨ids, sets, cs, hrun, -, -, hiff⟩ := computeSese_spec g root
  exact ⟨_, hrun, hiff⟩

/-- `5 → 0`, and from `0` two ways into loops. -/
def twins : GraphView Nat Nat :=
  .ofEdges [⟨0, 5, 0⟩, ⟨1, 0, 1⟩, ⟨2, 0, 3⟩, ⟨3, 1, 2⟩, ⟨4, 2, 1⟩, ⟨5, 3, 4⟩, ⟨6, 4, 3⟩] (by decide)

/-- Two regions consist of the node `0`. -/
theorem twins_not_decomposes : ∃ tree, computeSese twins 5 = .ok tree ∧ ¬ Decomposes tree := by
  have hrun : computeSese twins 5 = .ok ⟨[
      ⟨none, [1, 3, 4], none, none, [1, 3, 5], [0, 1, 2, 3, 4, 5]⟩,
      ⟨some 0, [2], some 0, some 1, [0], [0]⟩, ⟨some 1, [], some 0, some 2, [], [0]⟩,
      ⟨some 0, [], some 3, some 4, [2], [2]⟩, ⟨some 0, [], some 5, some 6, [4], [4]⟩]⟩ := by
    decide +kernel
  refine ⟨_, hrun, fun h => ?_⟩
  have hunion := h.union ⟨some 1, [], some 0, some 2, [], [0]⟩ (by decide)
  exact absurd hunion.length_eq (by decide)

/-- Where control always reaches the synthetic exit, the regions are closed, and since a set of nodes
has one boundary, the tree decomposes the graph. -/
theorem computeSese_terminating (g : GraphView NodeId EdgeId) (root : NodeId)
    (hterm : (augmented g root).Terminating (some root) none) :
    ∃ cs tree, computeSeseCandidates g root = .ok cs ∧ computeSese g root = .ok tree ∧
      AllClosed g root cs tree ∧ Decomposes tree := by
  obtain ⟨cs, hcs, hmem, -⟩ := computeSeseCandidates_spec g root
  obtain ⟨ids, sets, selected, htree, -, hselected, hdecomposes⟩ := computeSese_spec g root
  have hclosed : AllClosed g root cs (treeOf ids sets selected) := by
    apply ((allClosed_iff hmem hselected).trans candidates_closed_iff).2
    intro a b hcand x hx
    exact hcand.returns (augmented_flow g root) hterm hx
  refine ⟨cs, _, hcs, htree, hclosed, hdecomposes.2 fun c d hc hd hnodes => ?_⟩
  have hc := (isRegion_iff hterm).2 hc.candidate
  have hd := (isRegion_iff hterm).2 hd.candidate
  apply hc.eq_of_vertices hd
  rw [hnodes]

theorem computeSese_terminating_sandwich :
    ∃ cs tree, computeSeseCandidates sandwich 0 = .ok cs ∧ computeSese sandwich 0 = .ok tree ∧
      AllClosed sandwich 0 cs tree ∧ Decomposes tree :=
  computeSese_terminating sandwich 0 sandwich_terminates.terminating

/-! ## Canonical regions -/

/-- Fewest nodes among the candidates with its entry, and among those with its exit. -/
structure Canonical (cs : List (SeseCandidate NodeId EdgeId)) (c : SeseCandidate NodeId EdgeId) :
    Prop where
  mem : c ∈ cs
  entry : ∀ d ∈ cs, d.entryEdge = c.entryEdge →
    c.containedNodes.length ≤ d.containedNodes.length
  exit : ∀ d ∈ cs, d.exitEdge = c.exitEdge →
    c.containedNodes.length ≤ d.containedNodes.length

omit [LinearOrder EdgeId] in
theorem canonical_iff {cs : List (SeseCandidate NodeId EdgeId)}
    (hmem : ∀ c, c ∈ cs ↔ IsRegion g root c) {c : SeseCandidate NodeId EdgeId} :
    Canonical cs c ↔ IsCanonical g root c := by
  constructor
  · rintro ⟨hc, hentry, hexit⟩
    exact ⟨(hmem c).1 hc, fun d hd => hentry d ((hmem d).2 hd), fun d hd => hexit d ((hmem d).2 hd)⟩
  · rintro ⟨hc, hentry, hexit⟩
    exact ⟨(hmem c).2 hc, fun d hd => hentry d ((hmem d).1 hd), fun d hd => hexit d ((hmem d).1 hd)⟩

/-- The regions but region 0 are the canonical candidates, each once. -/
structure HoldsCanonical (cs : List (SeseCandidate NodeId EdgeId))
    (tree : SeseTree NodeId EdgeId) : Prop where
  nodup : (regionTriples tree).Nodup
  mem_iff : ∀ t, t ∈ regionTriples tree ↔ ∃ c, Canonical cs c ∧ candidateTriple c = t

/-- The tree of a terminating graph holds the canonical regions exactly when no canonical region
stands between two that come before it in the order of selection. -/
theorem computeSese_holdsCanonical_iff (g : GraphView NodeId EdgeId) (root : NodeId)
    (hterm : Terminates g root) :
    ∃ cs tree, computeSeseCandidates g root = .ok cs ∧ computeSese g root = .ok tree ∧
      (HoldsCanonical cs tree ↔ ∀ c, IsCanonical g root c → ¬ IsSqueezed g root c) := by
  have hterm := hterm.terminating
  obtain ⟨cs, hcs, hmem, -⟩ := computeSeseCandidates_spec g root
  obtain ⟨ids, sets, selected, htree, hnodup, hselected, -⟩ := computeSese_spec g root
  have hregion : ∀ c, c ∈ cs ↔ IsRegion g root c := fun c => by rw [hmem, isRegion_iff hterm]
  have hcanonical : ∀ c, Canonical cs c ↔ IsCanonical g root c := fun c => canonical_iff hregion
  refine ⟨cs, _, hcs, htree, ?_⟩
  constructor
  -- A canonical region of the tree was selected, so it is not squeezed.
  · intro h c hc
    rw [← hc.isSelected_iff hterm, ← hselected]
    have ht := (h.mem_iff (candidateTriple c)).2 ⟨c, (hcanonical c).2 hc, rfl⟩
    rw [regionTriples_treeOf] at ht
    exact (List.mem_map_of_injective candidateTriple_injective).1 ht
  · intro hfree
    refine ⟨?_, fun t => ?_⟩
    · rw [regionTriples_treeOf]
      exact hnodup.map candidateTriple_injective
    · rw [regionTriples_treeOf, List.mem_map]
      refine exists_congr fun c => and_congr_left fun _ => ?_
      rw [hselected, hcanonical]
      constructor
      · exact fun hc => hc.isCanonical hterm
      · exact fun hc => (hc.isSelected_iff hterm).2 (hfree c hc)

theorem computeSese_holdsCanonical_iff_sandwich :
    ∃ cs tree, computeSeseCandidates sandwich 0 = .ok cs ∧ computeSese sandwich 0 = .ok tree ∧
      (HoldsCanonical cs tree ↔ ∀ c, IsCanonical sandwich 0 c → ¬ IsSqueezed sandwich 0 c) :=
  computeSese_holdsCanonical_iff sandwich 0 sandwich_terminates

/-- The region of `2` and `3` is larger than both its neighbours. -/
theorem sandwich_not_holdsCanonical :
    Terminates sandwich 0 ∧ ∃ cs tree, computeSeseCandidates sandwich 0 = .ok cs ∧
      computeSese sandwich 0 = .ok tree ∧ ¬ HoldsCanonical cs tree := by
  have hcs : computeSeseCandidates sandwich 0 = .ok [⟨0, 5, [1, 2, 3, 4]⟩, ⟨0, 4, [1, 2, 3]⟩,
      ⟨1, 5, [2, 3, 4]⟩, ⟨1, 4, [2, 3]⟩, ⟨0, 1, [1]⟩, ⟨4, 5, [4]⟩] := by decide +kernel
  have htree : computeSese sandwich 0 = .ok ⟨[
      ⟨none, [1, 2], none, none, [0, 2, 3, 5], [0, 1, 2, 3, 4, 5]⟩,
      ⟨some 0, [], some 0, some 1, [1], [1]⟩, ⟨some 0, [], some 4, some 5, [4], [4]⟩]⟩ := by
    decide +kernel
  refine ⟨sandwich_terminates, _, _, hcs, htree, fun h => ?_⟩
  have hmiddle := (h.mem_iff (some 1, some 4, [2, 3])).2
    ⟨⟨1, 4, [2, 3]⟩, ⟨by decide, by decide, by decide⟩, rfl⟩
  exact absurd hmiddle (by decide)

end Sese
end Jstd
