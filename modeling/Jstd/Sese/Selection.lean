import Jstd.Sese.Borders

/-!
# Selection of canonical regions

`selectCanonical` keeps a candidate that is the first at one of its boundary edges, in the order of
`boundary_key`, and crosses no candidate (`Kept`).  The map it fills is shared by both roles an edge
can have, so what is first at an edge competes with the candidates that begin and that end there.
-/

namespace Jstd
namespace Sese

open Foundation

/-! ## The map -/

theorem orInsert_get? (map : HashMap Nat Nat) (key value e : Nat) :
    (orInsert map key value).get? e =
      (map.get? e).or (if key = e then some value else none) := by
  rw [orInsert, HashMap.containsKey]
  by_cases hkey : key = e
  · subst hkey
    cases hget : map.get? key with
    | none => simp
    | some v => simp [hget]
  · cases hget : map.get? key with
    | none => simp [HashMap.get?_insert, hkey, Ne.symm hkey]
    | some v => simp [hkey]

/-- The boundary has `e` for an edge. -/
def Boundary.touches (e : Nat) (c : Boundary) : Bool :=
  c.1 = e ∨ c.2.1 = e

theorem smallestForBoundary_get? {e : Nat} (pairs : List (Boundary × Nat)) :
    ∀ map, (smallestForBoundary pairs map).get? e =
      (map.get? e).or ((pairs.find? fun p => p.1.touches e).map fun p => p.2) := by
  induction pairs with
  | nil =>
      intro map
      simp [smallestForBoundary]
  | cons p pairs ih =>
      obtain ⟨⟨a, b, nodes⟩, index⟩ := p
      intro map
      rw [smallestForBoundary, ih, orInsert_get?, orInsert_get?, Option.or_assoc, Option.or_assoc]
      congr 1
      by_cases ha : a = e
      · simp [Boundary.touches, ha]
      · by_cases hb : b = e
        · simp [Boundary.touches, ha, hb]
        · simp [Boundary.touches, ha, hb]

/-- The map holds the first candidate at each edge. -/
theorem smallest_get? (candidates : List Boundary) (e : Nat) :
    (smallestForBoundary candidates.zipIdx .empty).get? e =
      candidates.findIdx? (Boundary.touches e) := by
  rw [smallestForBoundary_get?, HashMap.get?_empty, List.findIdx?_eq_fst_find?_zipIdx]
  rfl

/-! ## The two stages -/

/-- `selected` as `smallest_for_boundary` picks it. -/
def pickSmallest (candidates : List Boundary) : List Boundary :=
  let smallest := smallestForBoundary candidates.zipIdx .empty
  candidates.zipIdx.filterMap fun (candidate, index) =>
    if smallest.get? candidate.1 = some index ∨ smallest.get? candidate.2.1 = some index then
      some candidate
    else none

/-- `selected.retain(..)`. -/
def retainLaminar (candidates selected : List Boundary) : List Boundary :=
  selected.filter fun candidate => !candidates.any fun other => crosses candidate.2.2 other.2.2

theorem selectCanonical_eq (candidates : List Boundary) :
    selectCanonical candidates =
      sortByKey selectedKey (retainLaminar candidates (pickSmallest candidates)) := rfl

theorem mem_retainLaminar {candidates selected : List Boundary} {c : Boundary} :
    c ∈ retainLaminar candidates selected ↔
      c ∈ selected ∧ ∀ d ∈ candidates, crosses c.2.2 d.2.2 = false := by
  simp only [retainLaminar, List.mem_filter, Bool.not_eq_true', List.any_eq_false,
    Bool.not_eq_true]

/-- The filter is the identity when what is picked crosses nothing. -/
theorem retainLaminar_eq_self {candidates selected : List Boundary}
    (h : ∀ c ∈ selected, ∀ d ∈ candidates, crosses c.2.2 d.2.2 = false) :
    retainLaminar candidates selected = selected := by
  refine List.filter_eq_self.2 fun c hc => ?_
  simpa using h c hc

/-! ## What is kept -/

/-- No candidate at `e` comes before `c`. -/
def FirstAt (candidates : List Boundary) (e : Nat) (c : Boundary) : Prop :=
  ∀ d ∈ candidates, d.touches e → ¬ boundaryKey d < boundaryKey c

structure Kept (candidates : List Boundary) (c : Boundary) : Prop where
  mem : c ∈ candidates
  first : FirstAt candidates c.1 c ∨ FirstAt candidates c.2.1 c
  uncrossed : ∀ d ∈ candidates, crosses c.2.2 d.2.2 = false

section

variable {candidates : List Boundary}
  (hsorted : candidates.Pairwise fun c d => boundaryKey c < boundaryKey d)

include hsorted

theorem firstAt_iff {c : Boundary} {i e : Nat} (hi : candidates[i]? = some c)
    (hc : c.touches e) :
    candidates.findIdx? (Boundary.touches e) = some i ↔ FirstAt candidates e c := by
  obtain ⟨hlt, rfl⟩ := List.getElem?_eq_some_iff.1 hi
  rw [List.findIdx?_eq_some_iff_getElem]
  constructor
  · rintro ⟨_, _, hfirst⟩ d hd htouch hkey
    obtain ⟨j, hj, rfl⟩ := List.getElem_of_mem hd
    rcases Nat.lt_or_ge j i with hji | hij
    · exact hfirst j hji htouch
    · rcases Nat.eq_or_lt_of_le hij with rfl | hij
      · exact lt_irrefl _ hkey
      · exact lt_asymm hkey (List.pairwise_iff_getElem.1 hsorted i j hlt hj hij)
  · intro hfirst
    refine ⟨hlt, hc, fun j hji htouch => ?_⟩
    exact hfirst _ (List.getElem_mem _) htouch (List.pairwise_iff_getElem.1 hsorted j i _ hlt hji)

theorem mem_pickSmallest {c : Boundary} :
    c ∈ pickSmallest candidates ↔
      c ∈ candidates ∧ (FirstAt candidates c.1 c ∨ FirstAt candidates c.2.1 c) := by
  simp only [pickSmallest, List.mem_filterMap, smallest_get?]
  have hfirst : ∀ i, candidates[i]? = some c →
      (candidates.findIdx? (Boundary.touches c.1) = some i ∨
        candidates.findIdx? (Boundary.touches c.2.1) = some i ↔
        FirstAt candidates c.1 c ∨ FirstAt candidates c.2.1 c) := fun i hi =>
    or_congr (firstAt_iff hsorted hi (by simp [Boundary.touches]))
      (firstAt_iff hsorted hi (by simp [Boundary.touches]))
  constructor
  · rintro ⟨⟨d, i⟩, hd, hc⟩
    have hi := List.mk_mem_zipIdx_iff_getElem?.1 hd
    obtain ⟨hsmallest, hc⟩ := Option.ite_none_right_eq_some.1 hc
    obtain rfl := Option.some.inj hc
    exact ⟨List.mem_of_getElem? hi, (hfirst i hi).1 hsmallest⟩
  · rintro ⟨hmem, hleads⟩
    obtain ⟨i, hi⟩ := List.mem_iff_getElem?.1 hmem
    exact ⟨(c, i), List.mk_mem_zipIdx_iff_getElem?.2 hi, if_pos ((hfirst i hi).2 hleads)⟩

theorem mem_selectCanonical {c : Boundary} :
    c ∈ selectCanonical candidates ↔ Kept candidates c := by
  rw [selectCanonical_eq, mem_sortByKey, mem_retainLaminar, mem_pickSmallest hsorted]
  constructor
  · rintro ⟨⟨hmem, hfirst⟩, hcross⟩
    exact ⟨hmem, hfirst, hcross⟩
  · rintro ⟨hmem, hfirst, hcross⟩
    exact ⟨⟨hmem, hfirst⟩, hcross⟩

theorem selectCanonical_sorted :
    (selectCanonical candidates).Pairwise fun c d => selectedKey c < selectedKey d := by
  refine pairwise_lt_sortByKey ?_
  have hzip : candidates.zipIdx.Pairwise fun p q => boundaryKey p.1 < boundaryKey q.1 := by
    rw [← List.pairwise_map (f := fun p : Boundary × Nat => p.1)
      (R := fun c d => boundaryKey c < boundaryKey d)]
    exact (List.zipIdx_map_fst 0 candidates).symm ▸ hsorted
  rw [List.Nodup, List.pairwise_map]
  refine List.Pairwise.filter _ (List.pairwise_filterMap.2 (hzip.imp ?_))
  intro p q hlt c hc d hd heq
  obtain ⟨-, hc⟩ := Option.ite_none_right_eq_some.1 hc
  obtain ⟨-, hd⟩ := Option.ite_none_right_eq_some.1 hd
  rw [Option.some.inj hc, Option.some.inj hd] at hlt
  obtain ⟨hlen, hedges⟩ := Prod.mk.inj (toLex.injective heq)
  have hkey : boundaryKey c = boundaryKey d := by
    rw [boundaryKey, boundaryKey, hedges, OrderDual.toDual_inj.1 hlen]
  exact hlt.ne hkey

end

/-! ## In the terms of the graph -/

theorem isSubset_iff {xs ys : List Nat} : isSubset xs ys = true ↔ xs ⊆ ys := by
  simp [isSubset, List.subset_def]

theorem crosses_iff {xs ys : List Nat} :
    crosses xs ys = true ↔ Crosses {x | x ∈ xs} {x | x ∈ ys} := by
  simp only [crosses, Bool.and_eq_true, Bool.not_eq_true', ← Bool.not_eq_true, isSubset_iff,
    List.any_eq_true, List.contains_iff_mem, List.subset_def, not_forall, Crosses, and_assoc,
    exists_prop]
  rfl

variable {NodeId EdgeId : Type} [LinearOrder NodeId] [LinearOrder EdgeId]

/-- No candidate at the edge `e` is smaller than `c`, or as large and listed before it. -/
def LeadsAt (g : GraphView NodeId EdgeId) (root : NodeId) (e : EdgeId)
    (c : SeseCandidate NodeId EdgeId) : Prop :=
  ∀ d, IsCandidate g root d → d.entryEdge = e ∨ d.exitEdge = e → ¬ sizeKey d < sizeKey c

/-- What the selection keeps. -/
structure IsSelected (g : GraphView NodeId EdgeId) (root : NodeId)
    (c : SeseCandidate NodeId EdgeId) : Prop where
  candidate : IsCandidate g root c
  leads : LeadsAt g root c.entryEdge c ∨ LeadsAt g root c.exitEdge c
  uncrossed : ∀ d, IsCandidate g root d →
    ¬ Crosses (vertices c.containedNodes) (vertices d.containedNodes)

variable {g : GraphView NodeId EdgeId} {root : NodeId} {fg : Flowgraph NodeId EdgeId}
  {originals : List (GraphEdge NodeId EdgeId)} {leaving : List NodeId}

namespace Numbers

theorem crosses_iff (h : Numbers g root fg originals leaving) {b b' : Boundary}
    {c c' : SeseCandidate NodeId EdgeId} (hb : b ∈ boundaries fg) (hb' : b' ∈ boundaries fg)
    (hc : Names root fg originals b c) (hc' : Names root fg originals b' c') :
    crosses b.2.2 b'.2.2 = true ↔
      Crosses (vertices c.containedNodes) (vertices c'.containedNodes) := by
  have himage : ∀ (nodes : List Nat), vertices (nodes.map fun u => fg.ids.getD u root) =
      (fun u => some (fg.ids.getD u root)) '' {u | u ∈ nodes} := by
    intro nodes
    ext x
    simp [vertices, eq_comm]
  rw [Sese.crosses_iff, hc.nodes, hc'.nodes, himage, himage, crosses_image_iff]
  rintro u hu w hw heq
  have hbound : ∀ {v}, v ∈ {u | u ∈ b.2.2} ∪ {u | u ∈ b'.2.2} → v < fg.ids.length := by
    rintro v (hv | hv)
    · exact lt_of_mem_boundary hb hv
    · exact lt_of_mem_boundary hb' hv
  exact getD_inj _ h.ids_nodup (hbound hu) (hbound hw) (Option.some.inj heq)

theorem touches_iff (h : Numbers g root fg originals leaving) {b : Boundary} {a : Nat}
    {c : SeseCandidate NodeId EdgeId} {e : GraphEdge NodeId EdgeId} (ha : originals[a]? = some e)
    (hc : Names root fg originals b c) :
    b.touches a = true ↔ c.entryEdge = e.id ∨ c.exitEdge = e.id := by
  obtain ⟨e', he', hid⟩ := hc.entry
  obtain ⟨f', hf', hid'⟩ := hc.exit
  rw [Boundary.touches, decide_eq_true_eq, h.eq_iff he' ha, h.eq_iff hf' ha, hid, hid']

theorem firstAt_iff (h : Numbers g root fg originals leaving) {b : Boundary} {a : Nat}
    {c : SeseCandidate NodeId EdgeId} {e : GraphEdge NodeId EdgeId} (ha : originals[a]? = some e)
    (hc : Names root fg originals b c) :
    FirstAt (sortByKey boundaryKey (boundaries fg)) a b ↔ LeadsAt g root e.id c := by
  constructor
  · intro hfirst d hd htouch
    obtain ⟨b', hb', hnames⟩ := h.exists_boundary hd
    rw [← h.key_lt_iff hnames hc]
    exact hfirst b' (mem_sortByKey.2 hb') ((h.touches_iff ha hnames).2 htouch)
  · intro hleads b' hb' htouch
    have hb' := mem_sortByKey.1 hb'
    obtain ⟨d, -, hnames⟩ := h.exists_names hb'
    rw [h.key_lt_iff hnames hc]
    exact hleads d (hnames.isCandidate h hb') ((h.touches_iff ha hnames).1 htouch)

/-- The selection, in the terms of the graph. -/
theorem kept_iff (h : Numbers g root fg originals leaving) {b : Boundary}
    {c : SeseCandidate NodeId EdgeId} (hb : b ∈ boundaries fg)
    (hc : Names root fg originals b c) :
    Kept (sortByKey boundaryKey (boundaries fg)) b ↔ IsSelected g root c := by
  obtain ⟨e, he, hid⟩ := hc.entry
  obtain ⟨f, hf, hid'⟩ := hc.exit
  have hentry := h.firstAt_iff he hc
  have hexit := h.firstAt_iff hf hc
  rw [hid] at hentry
  rw [hid'] at hexit
  constructor
  · rintro ⟨-, hfirst, huncrossed⟩
    refine ⟨hc.isCandidate h hb, (or_congr hentry hexit).1 hfirst, fun d hd hcross => ?_⟩
    obtain ⟨b', hb', hnames⟩ := h.exists_boundary hd
    have hcross := (h.crosses_iff hb hb' hc hnames).2 hcross
    rw [huncrossed b' (mem_sortByKey.2 hb')] at hcross
    cases hcross
  · rintro ⟨-, hleads, huncrossed⟩
    refine ⟨mem_sortByKey.2 hb, (or_congr hentry hexit).2 hleads, fun b' hb' => ?_⟩
    have hb' := mem_sortByKey.1 hb'
    obtain ⟨d, -, hnames⟩ := h.exists_names hb'
    rw [← Bool.not_eq_true, h.crosses_iff hb hb' hc hnames]
    exact huncrossed d (hnames.isCandidate h hb')

end Numbers

end Sese
end Jstd
