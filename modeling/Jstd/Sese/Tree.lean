import Jstd.Foundation.Laminar
import Jstd.Sese.Selection

/-!
# The program-structure tree

`buildTree` in closed form: a region's parent is the `deepest` earlier set around its own, a node
belongs to the `deepest` set of all.  `deepest` returns the first of the smallest sets, which in a
laminar list is the last set; where two sets are equal it never returns the second.
-/

namespace Jstd
namespace Sese

open Foundation

/-! ## The deepest set -/

theorem minByLen_eq_none {xs : List (List Nat × Nat)} (h : minByLen xs = none) : xs = [] := by
  cases xs with
  | nil => rfl
  | cons p rest =>
      rw [minByLen] at h
      split at h
      · cases h
      · split at h
        · cases h
        · cases h

/-- The first of the smallest. -/
theorem minByLen_eq_some {xs : List (List Nat × Nat)} (hsorted : xs.Pairwise fun p q => p.2 < q.2)
    {q : List Nat × Nat} (h : minByLen xs = some q) : q ∈ xs ∧ ∀ r ∈ xs,
      q.1.length < r.1.length ∨ (q.1.length = r.1.length ∧ q.2 ≤ r.2) := by
  induction xs generalizing q with
  | nil => cases h
  | cons p rest ih =>
      rw [List.pairwise_cons] at hsorted
      rw [minByLen] at h
      -- The list is in order of position, so an earlier set wins a tie.
      cases hrest : minByLen rest with
      | none =>
          rw [hrest] at h
          obtain rfl := Option.some.inj h
          rw [minByLen_eq_none hrest]
          simp
      | some m =>
          rw [hrest] at h
          obtain ⟨hm, hmin⟩ := ih hsorted.2 hrest
          by_cases hlt : m.1.length < p.1.length
          · obtain rfl : m = q := Option.some.inj ((if_pos hlt).symm.trans h)
            refine ⟨List.mem_cons_of_mem p hm, fun r hr => ?_⟩
            rcases List.mem_cons.1 hr with rfl | hr
            · exact .inl hlt
            · exact hmin r hr
          · obtain rfl : p = q := Option.some.inj ((if_neg hlt).symm.trans h)
            refine ⟨List.mem_cons_self, fun r hr => ?_⟩
            rcases List.mem_cons.1 hr with rfl | hr
            · exact .inr ⟨rfl, Nat.le_refl _⟩
            · have hlt' := hsorted.1 r hr
              rcases hmin r hr with hr | ⟨hr, -⟩
              · omega
              · omega

section

variable {sets : List (List Nat)} {p : List Nat → Bool}

theorem deepest_spec (sets : List (List Nat)) (p : List Nat → Bool) :
    (∃ i set, deepest sets p = i ∧ sets[i]? = some set ∧ p set = true ∧ ∀ k other,
      sets[k]? = some other → p other = true →
        set.length < other.length ∨ (set.length = other.length ∧ i ≤ k)) ∨
    ((∀ set ∈ sets, p set = false) ∧ deepest sets p = 0) := by
  have hzip : sets.zipIdx.Pairwise fun q r => q.2 < r.2 := by
    rw [← List.pairwise_map (f := fun q : List Nat × Nat => q.2) (R := fun i j => i < j)]
    rw [List.zipIdx_map_snd]
    exact List.pairwise_lt_range'
  rw [deepest]
  cases hmin : minByLen (sets.zipIdx.filter fun q => p q.1) with
  | none =>
      refine .inr ⟨fun set hset => ?_, rfl⟩
      have hempty := minByLen_eq_none hmin
      rw [List.filter_eq_nil_iff] at hempty
      obtain ⟨i, hi⟩ := List.mem_iff_getElem?.1 hset
      simpa using hempty (set, i) (List.mk_mem_zipIdx_iff_getElem?.2 hi)
  | some q =>
      obtain ⟨hq, hmin⟩ := minByLen_eq_some (hzip.filter _) hmin
      obtain ⟨hq, hp⟩ := List.mem_filter.1 hq
      refine .inl ⟨q.2, q.1, rfl, List.mk_mem_zipIdx_iff_getElem?.1 hq, hp, fun k other hk hother => ?_⟩
      exact hmin (other, k) (List.mem_filter.2 ⟨List.mk_mem_zipIdx_iff_getElem?.2 hk, hother⟩)

theorem deepest_lt (hne : sets ≠ []) : deepest sets p < sets.length := by
  rcases deepest_spec sets p with ⟨i, set, hi, hset, -⟩ | ⟨-, hzero⟩
  · rw [hi]
    exact (List.getElem?_eq_some_iff.1 hset).1
  · rw [hzero]
    exact List.length_pos_iff.2 hne

/-- Of equal sets the later one is not returned. -/
theorem deepest_ne {i j : Nat} (set : List Nat) (hij : i < j) (hi : sets[i]? = some set)
    (hj : sets[j]? = some set) : deepest sets p ≠ j := by
  intro heq
  rcases deepest_spec sets p with ⟨k, set', hk, hset', hp, hmin⟩ | ⟨-, hzero⟩
  · obtain rfl : j = k := heq.symm.trans hk
    obtain rfl := Option.some.inj (hj.symm.trans hset')
    rcases hmin i set hi hp with hlt | ⟨-, hle⟩
    · exact lt_irrefl _ hlt
    · omega
  · omega

/-- Where the sets that satisfy `p` get smaller along the list, the last of them is returned. -/
theorem deepest_eq_iff {i : Nat} (hshrink : ∀ (j k : Nat) (s t : List Nat), j < k → sets[j]? = some s →
      sets[k]? = some t → p s = true → p t = true → t.length < s.length)
    (hexists : ∃ s ∈ sets, p s = true) :
    deepest sets p = i ↔ (∃ s, sets[i]? = some s ∧ p s = true) ∧
      ∀ k t, i < k → sets[k]? = some t → p t = false := by
  rcases deepest_spec sets p with ⟨j, set, hj, hset, hp, hmin⟩ | ⟨hnone, -⟩
  · have hlast : ∀ k t, j < k → sets[k]? = some t → p t = false := by
      intro k t hjk hk
      by_contra hpt
      have hpt := Bool.eq_true_of_not_eq_false hpt
      have hlt := hshrink j k set t hjk hset hk hp hpt
      rcases hmin k t hk hpt with h | ⟨h, -⟩
      · omega
      · omega
    constructor
    · intro hi
      obtain rfl := hi.symm.trans hj
      exact ⟨⟨set, hset, hp⟩, hlast⟩
    · rintro ⟨⟨s, hs, hps⟩, hlast'⟩
      -- The set returned and the last set are the same, as neither may come after the other.
      rw [hj]
      rcases Nat.lt_trichotomy i j with hij | rfl | hji
      · rw [hlast' j set hij hset] at hp
        cases hp
      · rfl
      · rw [hlast i s hji hs] at hps
        cases hps
  · obtain ⟨s, hs, hps⟩ := hexists
    rw [hnone s hs] at hps
    cases hps

end

/-! ## Places in the tree -/

/-- The region around set `j`. -/
def parentOf (sets : List (List Nat)) (j : Nat) : Nat :=
  deepest (sets.take j) fun set => isSubset (sets.getD j []) set

/-- The regions below set `i`. -/
def childrenOf (sets : List (List Nat)) (i : Nat) : List Nat :=
  (List.range sets.length).filter fun j => j ≠ 0 ∧ parentOf sets j = i

section

variable {sets : List (List Nat)}

theorem parentOf_lt {j : Nat} (hne : sets ≠ []) (hj : 0 < j) : parentOf sets j < j := by
  refine lt_of_lt_of_le (deepest_lt ?_) (List.length_take_le j sets)
  rw [Ne, List.take_eq_nil_iff, not_or]
  exact ⟨Nat.ne_of_gt hj, hne⟩

theorem mem_childrenOf {i j : Nat} :
    j ∈ childrenOf sets i ↔ j < sets.length ∧ 0 < j ∧ parentOf sets j = i := by
  rw [childrenOf, List.mem_filter, List.mem_range, decide_eq_true_eq, Nat.pos_iff_ne_zero]

theorem childrenOf_sorted (sets : List (List Nat)) (i : Nat) :
    (childrenOf sets i).Pairwise (· < ·) :=
  List.pairwise_lt_range.filter _

theorem parentOf_append {more : List (List Nat)} {j : Nat} (hj : j < sets.length) :
    parentOf (sets ++ more) j = parentOf sets j := by
  rw [parentOf, parentOf, List.take_append_of_le_length hj.le, List.getD_append _ _ _ _ hj]

theorem childrenOf_append (hne : sets ≠ []) (nodes : List Nat) (i : Nat) :
    childrenOf (sets ++ [nodes]) i = childrenOf sets i ++
      if parentOf (sets ++ [nodes]) sets.length = i then [sets.length] else [] := by
  have hlen : sets.length ≠ 0 := fun h => hne (List.length_eq_zero_iff.1 h)
  rw [childrenOf, List.length_append, List.length_singleton, List.range_succ, List.filter_append,
    childrenOf]
  congr 1
  · refine List.filter_congr fun j hj => ?_
    rw [parentOf_append (List.mem_range.1 hj)]
  · by_cases hparent : parentOf (sets ++ [nodes]) sets.length = i
    · simp [hparent, hne]
    · simp [hparent]

/-- The last region has no children yet. -/
theorem childrenOf_last (sets : List (List Nat)) (nodes : List Nat) :
    childrenOf (sets ++ [nodes]) sets.length = [] := by
  rw [List.eq_nil_iff_forall_not_mem]
  intro j hj
  obtain ⟨hlt, hpos, hparent⟩ := mem_childrenOf.1 hj
  have hlt' := parentOf_lt (show sets ++ [nodes] ≠ [] by simp) hpos
  rw [List.length_append, List.length_singleton] at hlt
  omega

end

/-! ## The regions -/

variable {NodeId EdgeId : Type}

/-- Region 0, before the tree is built. -/
def rootRegion (ids : List NodeId) : SeseRegion NodeId EdgeId where
  parent := none
  children := []
  entryEdge := none
  exitEdge := none
  nodes := []
  containedNodes := ids

/-- The region of a candidate, before its place is known. -/
def regionOf (c : SeseCandidate NodeId EdgeId) : SeseRegion NodeId EdgeId where
  parent := none
  children := []
  entryEdge := some c.entryEdge
  exitEdge := some c.exitEdge
  nodes := []
  containedNodes := c.containedNodes

/-- Region `i` in its place. -/
def place (sets : List (List Nat)) (i : Nat) (region : SeseRegion NodeId EdgeId) :
    SeseRegion NodeId EdgeId :=
  { region with
    parent := if i = 0 then none else some (parentOf sets i)
    children := childrenOf sets i }

theorem updateAt_of_lt {α : Type} {xs : List α} {i : Nat} (hi : i < xs.length) (f : α → α) :
    updateAt xs i f = .ok (xs.modify i f) := by
  rw [updateAt, index_of_getElem? (List.getElem?_eq_getElem hi)]
  show setIndex xs i (f xs[i]) = _
  rw [setIndex_of_lt hi, List.modify_eq_set_getElem?, List.getElem?_eq_getElem hi]
  rfl

theorem place_of_lt {sets : List (List Nat)} (hne : sets ≠ []) (nodes : List Nat) {i : Nat}
    (hi : i < sets.length) (region : SeseRegion NodeId EdgeId) :
    place (sets ++ [nodes]) i region =
      if parentOf (sets ++ [nodes]) sets.length = i then
        { place sets i region with children := childrenOf sets i ++ [sets.length] }
      else place sets i region := by
  rw [place, parentOf_append hi, childrenOf_append hne]
  by_cases hparent : parentOf (sets ++ [nodes]) sets.length = i
  · simp only [if_pos hparent]
    rfl
  · simp only [if_neg hparent, List.append_nil]
    rfl

/-- A new region is placed by appending it and telling its parent. -/
theorem place_append {regions : List (SeseRegion NodeId EdgeId)} {sets : List (List Nat)}
    (hne : sets ≠ []) (hlen : regions.length = sets.length) (region : SeseRegion NodeId EdgeId)
    (nodes : List Nat) :
    ((regions.mapIdx (place sets) ++ [{ region with
        parent := some (parentOf (sets ++ [nodes]) sets.length), children := [] }]).modify
      (parentOf (sets ++ [nodes]) sets.length) fun r =>
        { r with children := r.children ++ [sets.length] }) =
      (regions ++ [region]).mapIdx (place (sets ++ [nodes])) := by
  have hparent : parentOf (sets ++ [nodes]) sets.length < sets.length :=
    parentOf_lt (by simp) (List.length_pos_iff.2 hne)
  refine List.ext_getElem? fun i => ?_
  rw [List.getElem?_modify, List.getElem?_mapIdx]
  rcases Nat.lt_trichotomy i sets.length with hlt | rfl | hgt
  · rw [List.getElem?_append_left (by simpa [hlen] using hlt),
      List.getElem?_append_left (by rwa [hlen]), List.getElem?_mapIdx,
      List.getElem?_eq_getElem (by rwa [hlen])]
    simp only [Option.map_some, Option.map_eq_map, place_of_lt hne nodes hlt]
    rfl
  · have hpos : sets.length ≠ 0 := fun h => hne (List.length_eq_zero_iff.1 h)
    rw [List.getElem?_append_right (by simp [hlen]), List.getElem?_append_right (by simp [hlen]),
      List.length_mapIdx, hlen, Nat.sub_self]
    simp [place, childrenOf_last, hpos, Nat.ne_of_lt hparent]
  · rw [List.getElem?_eq_none (by simp [hlen]; omega), List.getElem?_eq_none (by simp [hlen]; omega)]
    rfl

variable [LinearOrder NodeId] [LinearOrder EdgeId] {g : GraphView NodeId EdgeId} {root : NodeId}
  {fg : Flowgraph NodeId EdgeId} {originals : List (GraphEdge NodeId EdgeId)}
  {leaving : List NodeId}

theorem buildRegions_spec (h : Numbers g root fg originals leaving) {selected : List Boundary}
    {cs : List (SeseCandidate NodeId EdgeId)}
    (hcs : List.Forall₂ (Names root fg originals) selected cs)
    (hbound : ∀ b ∈ selected, ∀ u ∈ b.2.2, u < fg.ids.length) :
    ∀ regions sets, sets ≠ [] → regions.length = sets.length →
      buildRegions fg selected (regions.mapIdx (place sets)) sets =
        .ok ((regions ++ cs.map regionOf).mapIdx (place (sets ++ selected.map fun b => b.2.2)),
          sets ++ selected.map fun b => b.2.2) := by
  induction hcs with
  | nil =>
      intro regions sets _ _
      simp [buildRegions]
  | @cons b c selected cs hc _ ih =>
      obtain ⟨a, b, nodes⟩ := b
      intro regions sets hne hlen
      obtain ⟨e, he, hid⟩ := hc.entry
      obtain ⟨f, hf, hid'⟩ := hc.exit
      obtain ⟨edgeA, hA, hA'⟩ := h.index_original he
      obtain ⟨edgeB, hB, hB'⟩ := h.index_original hf
      have hnodes := nodeIds_eq fg root (hbound _ List.mem_cons_self)
      -- The parent of the new region is found among the sets before it.
      have hparent : parentOf (sets ++ [nodes]) sets.length =
          deepest sets fun set => isSubset nodes set := by
        rw [parentOf, List.take_left, List.getD_append_right _ _ _ _ (Nat.le_refl _),
          Nat.sub_self]
        rfl
      have hstep := place_append hne hlen (regionOf c) nodes
      have hlt : deepest sets (fun set => isSubset nodes set) < sets.length := deepest_lt hne
      rw [hparent] at hstep
      rw [buildRegions, hA, hB, hnodes, List.length_mapIdx, hlen]
      show (updateAt _ _ _ >>= _) = _
      rw [updateAt_of_lt (by simp [hlen]; omega), hA', hB', hid, hid', ← hc.nodes]
      have hrun := ih (fun b hb => hbound b (List.mem_cons_of_mem _ hb)) (regions ++ [regionOf c])
        (sets ++ [nodes]) (by simp) (by simp [hlen])
      rw [← hstep] at hrun
      refine hrun.trans ?_
      simp only [List.map_cons, List.append_assoc, List.singleton_append]

/-- The region node `v` belongs to. -/
def ownerOf (sets : List (List Nat)) (v : Nat) : Nat :=
  deepest sets fun set => set.contains v

/-- The nodes that belong to region `i`. -/
def ownedBy (sets : List (List Nat)) (pairs : List (NodeId × Nat)) (i : Nat) : List NodeId :=
  (pairs.filter fun p => ownerOf sets p.2 = i).map fun p => p.1

omit [LinearOrder NodeId] [LinearOrder EdgeId] in
theorem assignOwners_spec {sets : List (List Nat)} (hne : sets ≠ []) (pairs : List (NodeId × Nat)) :
    ∀ regions : List (SeseRegion NodeId EdgeId), regions.length = sets.length →
      assignOwners sets pairs regions = .ok (regions.mapIdx fun i region =>
        { region with nodes := region.nodes ++ ownedBy sets pairs i }) := by
  induction pairs with
  | nil =>
      intro regions _
      refine congrArg Except.ok (List.ext_getElem? fun i => ?_)
      rw [List.getElem?_mapIdx]
      cases regions[i]? with
      | none => rfl
      | some region =>
          simp [ownedBy]
  | cons p pairs ih =>
      obtain ⟨node, nodeIndex⟩ := p
      intro regions hlen
      have howner : ownerOf sets nodeIndex < regions.length := by
        rw [hlen]
        exact deepest_lt hne
      rw [assignOwners]
      show (updateAt regions (ownerOf sets nodeIndex) _ >>= _) = _
      rw [updateAt_of_lt howner]
      refine (ih _ (by simpa using hlen)).trans (congrArg Except.ok ?_)
      refine List.ext_getElem? fun i => ?_
      rw [List.getElem?_mapIdx, List.getElem?_mapIdx, List.getElem?_modify]
      cases regions[i]? with
      | none => rfl
      | some region =>
          by_cases hi : ownerOf sets nodeIndex = i
          · simp [ownedBy, hi]
          · simp [ownedBy, hi]

omit [LinearOrder NodeId] [LinearOrder EdgeId] in
theorem sortChildren_eq {region : SeseRegion NodeId EdgeId}
    (h : region.children.Pairwise (· < ·)) : sortChildren region = region := by
  have hsorted : sortByKey (fun child => child) region.children = region.children :=
    List.Pairwise.insertionSort_eq (h.imp Nat.le_of_lt)
  rw [sortChildren, hsorted]

/-- The tree in closed form. -/
def treeOf (ids : List NodeId) (sets : List (List Nat)) (cs : List (SeseCandidate NodeId EdgeId)) :
    SeseTree NodeId EdgeId where
  regions := (rootRegion ids :: cs.map regionOf).mapIdx fun i region =>
    { place sets i region with nodes := ownedBy sets ids.zipIdx i }

theorem buildTree_spec (h : Numbers g root fg originals leaving) {selected : List Boundary}
    {cs : List (SeseCandidate NodeId EdgeId)}
    (hcs : List.Forall₂ (Names root fg originals) selected cs)
    (hbound : ∀ b ∈ selected, ∀ u ∈ b.2.2, u < fg.ids.length) :
    buildTree fg selected = .ok (treeOf fg.ids
      (List.range fg.ids.length :: selected.map fun b => b.2.2) cs) := by
  have hbuild := buildRegions_spec h hcs hbound [rootRegion fg.ids] [List.range fg.ids.length]
    (by simp) rfl
  have hroot : [(rootRegion fg.ids : SeseRegion NodeId EdgeId)].mapIdx
      (place [List.range fg.ids.length]) = [rootRegion fg.ids] := by
    simp [place, rootRegion, childrenOf]
  rw [hroot] at hbuild
  have hlen := hcs.length_eq
  rw [buildTree]
  show (buildRegions fg selected [rootRegion fg.ids] _ >>= _) = _
  rw [hbuild]
  show (assignOwners (List.range fg.ids.length :: selected.map fun b => b.2.2) _ _ >>= _) = _
  rw [assignOwners_spec (by simp) _ _ (by simp [hlen])]
  refine congrArg Except.ok ?_
  rw [treeOf]
  congr 1
  refine List.ext_getElem? fun i => ?_
  simp only [List.getElem?_mapIdx, List.getElem?_map, List.singleton_append]
  cases hregion : (rootRegion fg.ids :: cs.map regionOf)[i]? with
  | none => rfl
  | some region =>
      -- No region owns nodes before `assignOwners`.
      have hnodes : region.nodes = [] := by
        rcases List.mem_cons.1 (List.mem_of_getElem? hregion) with rfl | hmem
        · rfl
        · obtain ⟨c, -, rfl⟩ := List.mem_map.1 hmem
          rfl
      simp only [Option.map_some]
      rw [sortChildren_eq (childrenOf_sorted _ i)]
      simp only [place, hnodes, List.nil_append]

end Sese
end Jstd
