import Jstd.Sese.Tree

/-!
# What the tree decomposes

Where the sets of the regions differ, they are laminar and `deepest` finds owners and parents, so
every region is what it owns and what its children hold (`Family.decomposes`).  Where two regions
have one set, the later one owns nothing and has no children (`not_decomposes`).
-/

namespace Jstd
namespace Sese

open Foundation

/-! ## Laminar lists -/

/-- Set `i` of a list. -/
def setAt (sets : List (List Nat)) (i : Nat) : Set Nat :=
  {v | v ∈ sets.getD i []}

/-- The sets of a tree over `n` nodes: later ones are disjoint from earlier ones, or inside them. -/
structure Family (n : Nat) (sets : List (List Nat)) : Prop where
  nodup : ∀ s ∈ sets, s.Nodup
  nonempty : ∀ s ∈ sets, s ≠ []
  head : sets[0]? = some (List.range n)
  bound : ∀ s ∈ sets, ∀ v ∈ s, v < n
  nested : ∀ (i j : Nat) s t, i < j → sets[i]? = some s → sets[j]? = some t →
    Disjoint {v | v ∈ s} {v | v ∈ t} ∨ {v | v ∈ t} ⊂ {v | v ∈ s} ∨ s = t

theorem setAt_of_getElem? {sets : List (List Nat)} {i : Nat} {s : List Nat}
    (h : sets[i]? = some s) : setAt sets i = {v | v ∈ s} := by
  rw [setAt, List.getD_eq_getElem?_getD, h]
  rfl

theorem mem_setAt {sets : List (List Nat)} {i v : Nat} :
    v ∈ setAt sets i ↔ ∃ s, sets[i]? = some s ∧ v ∈ s := by
  constructor
  · intro hv
    cases hi : sets[i]? with
    | none => simp [setAt, List.getD_eq_getElem?_getD, hi] at hv
    | some s =>
        rw [setAt_of_getElem? hi] at hv
        exact ⟨s, rfl, hv⟩
  · rintro ⟨s, hs, hv⟩
    rw [setAt_of_getElem? hs]
    exact hv

namespace Family

variable {n : Nat} {sets : List (List Nat)}

/-- Sets that differ are laminar. -/
theorem laminar (h : Family n sets) (hdistinct : sets.Nodup) :
    Laminar (setAt sets) sets.length := by
  intro i j hij hj
  have hs := List.getElem?_eq_getElem (hij.trans hj)
  have ht := List.getElem?_eq_getElem hj
  rw [setAt_of_getElem? hs, setAt_of_getElem? ht]
  rcases h.nested i j _ _ hij hs ht with hdisj | hsub | heq
  · exact .inl hdisj
  · exact .inr hsub
  · exact absurd ((List.Nodup.getElem_inj_iff hdistinct).1 heq) hij.ne

/-- Later sets around one node are smaller. -/
theorem shrink (h : Family n sets) (hdistinct : sets.Nodup) {j k : Nat} {s t : List Nat} (hjk : j < k)
    (hs : sets[j]? = some s) (ht : sets[k]? = some t) {v : Nat} (hvs : v ∈ s) (hvt : v ∈ t) :
    t.length < s.length := by
  have hsub := (h.laminar hdistinct).ssubset hjk (List.getElem?_eq_some_iff.1 ht).1
    (v := v) (by rw [setAt_of_getElem? hs]; exact hvs) (by rw [setAt_of_getElem? ht]; exact hvt)
  rw [setAt_of_getElem? hs, setAt_of_getElem? ht] at hsub
  exact length_lt_of_ssubset (h.nodup t (List.mem_of_getElem? ht)) hsub

theorem ownerOf_iff (h : Family n sets) (hdistinct : sets.Nodup) {i v : Nat} (hv : v < n) :
    ownerOf sets v = i ↔ IsOwner (setAt sets) sets.length i v := by
  rw [ownerOf, deepest_eq_iff]
  · simp only [List.contains_iff_mem, ← Bool.not_eq_true]
    constructor
    · rintro ⟨⟨s, hs, hvs⟩, hlast⟩
      refine ⟨(List.getElem?_eq_some_iff.1 hs).1, mem_setAt.2 ⟨s, hs, hvs⟩, fun k hik _ hvk => ?_⟩
      obtain ⟨t, ht, hvt⟩ := mem_setAt.1 hvk
      exact hlast k t hik ht hvt
    · rintro ⟨-, hvi, hlast⟩
      refine ⟨mem_setAt.1 hvi, fun k t hik ht hvt => ?_⟩
      exact hlast k hik (List.getElem?_eq_some_iff.1 ht).1 (mem_setAt.2 ⟨t, ht, hvt⟩)
  · intro j k s t hjk hs ht hvs hvt
    exact h.shrink hdistinct hjk hs ht (List.contains_iff_mem.1 hvs) (List.contains_iff_mem.1 hvt)
  · refine ⟨List.range n, List.mem_of_getElem? h.head, ?_⟩
    rw [List.contains_iff_mem, List.mem_range]
    exact hv

theorem parentOf_iff (h : Family n sets) (hdistinct : sets.Nodup) {i j : Nat} (hpos : 0 < j) (hj : j < sets.length) :
    parentOf sets j = i ↔ IsParent (setAt sets) i j := by
  obtain ⟨u, hu⟩ : ∃ u, sets[j]? = some u := ⟨_, List.getElem?_eq_getElem hj⟩
  have humem := List.mem_of_getElem? hu
  obtain ⟨v, hv⟩ := List.exists_mem_of_ne_nil u (h.nonempty u humem)
  have hget : sets.getD j [] = u := by
    rw [List.getD_eq_getElem?_getD, hu]
    rfl
  -- The candidates for the parent are the sets before `j`.
  have htake : ∀ {k t}, (sets.take j)[k]? = some t ↔ k < j ∧ sets[k]? = some t := by
    intro k t
    rw [List.getElem?_take]
    by_cases hk : k < j
    · simp [hk]
    · simp [hk]
  have hsub : ∀ {k t}, sets[k]? = some t → (u ⊆ t ↔ setAt sets j ⊆ setAt sets k) := by
    intro k t ht
    rw [setAt_of_getElem? hu, setAt_of_getElem? ht]
    rfl
  rw [parentOf, hget, deepest_eq_iff]
  · simp only [isSubset_iff, ← Bool.not_eq_true, htake]
    constructor
    · rintro ⟨⟨s, ⟨hij, hs⟩, hus⟩, hlast⟩
      refine ⟨hij, (hsub hs).1 hus, fun k hik hkj hle => ?_⟩
      have ht := List.getElem?_eq_getElem (hkj.trans hj)
      exact hlast k _ hik ⟨hkj, ht⟩ ((hsub ht).2 hle)
    · rintro ⟨hij, hle, hlast⟩
      have hs := List.getElem?_eq_getElem (hij.trans hj)
      refine ⟨⟨_, ⟨hij, hs⟩, (hsub hs).2 hle⟩, fun k t hik ht hut => ?_⟩
      exact hlast k hik ht.1 ((hsub ht.2).1 hut)
  -- Of two sets that hold this one, the later is smaller.
  · intro k l s t hkl hs ht hus hut
    rw [htake] at hs ht
    exact h.shrink hdistinct hkl hs.2 ht.2 (isSubset_iff.1 hus hv) (isSubset_iff.1 hut hv)
  · refine ⟨List.range n, List.mem_of_getElem? (i := 0) ?_, ?_⟩
    · rw [List.getElem?_take_of_lt hpos]
      exact h.head
    · rw [isSubset_iff]
      exact fun w hw => List.mem_range.2 (h.bound u humem w hw)

/-- A set is the nodes its region owns and the sets of its children. -/
theorem perm (h : Family n sets) (hdistinct : sets.Nodup) {i : Nat} (hi : i < sets.length) :
    (((List.range n).filter fun v => ownerOf sets v = i) ++
      (childrenOf sets i).flatMap fun j => sets.getD j []).Perm (sets.getD i []) := by
  have hmem : ∀ k, k < sets.length → sets.getD k [] ∈ sets := by
    intro k hk
    rw [List.getD_eq_getElem _ _ hk]
    exact List.getElem_mem hk
  have howner : ∀ v, v ∈ (List.range n).filter (fun v => ownerOf sets v = i) ↔
      v < n ∧ IsOwner (setAt sets) sets.length i v := by
    intro v
    rw [List.mem_filter, List.mem_range, decide_eq_true_eq]
    exact and_congr_right fun hv => h.ownerOf_iff hdistinct hv
  have hchild : ∀ j, j ∈ childrenOf sets i ↔ j < sets.length ∧ IsParent (setAt sets) i j := by
    intro j
    rw [mem_childrenOf]
    refine and_congr_right fun hj => ?_
    constructor
    · rintro ⟨hpos, hparent⟩
      exact (h.parentOf_iff hdistinct hpos hj).1 hparent
    · intro hparent
      have hpos := Nat.zero_lt_of_lt hparent.lt
      exact ⟨hpos, (h.parentOf_iff hdistinct hpos hj).2 hparent⟩
  -- Neither list repeats a node, so it is enough that they have the same ones.
  refine (List.perm_ext_iff_of_nodup ?_ (h.nodup _ (hmem i hi))).2 fun v => ?_
  · rw [List.nodup_append]
    refine ⟨List.nodup_range.filter _, ?_, ?_⟩
    · rw [List.nodup_flatMap]
      refine ⟨fun j hj => h.nodup _ (hmem j ((hchild j).1 hj).1), ?_⟩
      refine (childrenOf_sorted sets i).imp_of_mem fun {j k} hj hk hjk v hvj hvk => ?_
      obtain ⟨hj, hij⟩ := (hchild j).1 hj
      obtain ⟨hk, hik⟩ := (hchild k).1 hk
      exact Set.disjoint_left.1 ((h.laminar hdistinct).disjoint_children hj hk hij hik hjk.ne) hvj hvk
    · intro v hv w hw heq
      subst heq
      obtain ⟨j, hj, hvj⟩ := List.mem_flatMap.1 hw
      obtain ⟨hj, hij⟩ := (hchild j).1 hj
      exact Laminar.notMem_child ((howner v).1 hv).2 hj hij hvj
  · rw [List.mem_append, howner, List.mem_flatMap]
    refine Iff.trans ?_ ((h.laminar hdistinct).mem_iff hi (v := v)).symm
    refine or_congr (and_iff_right_of_imp fun hv => ?_) ?_
    · obtain ⟨s, hs, hvs⟩ := mem_setAt.1 hv.mem
      exact h.bound s (List.mem_of_getElem? hs) v hvs
    · constructor
      · rintro ⟨j, hj, hvj⟩
        exact ⟨j, ((hchild j).1 hj).1, ((hchild j).1 hj).2, hvj⟩
      · rintro ⟨j, hj, hij, hvj⟩
        exact ⟨j, (hchild j).2 ⟨hj, hij⟩, hvj⟩

end Family

/-! ## Decomposition -/

variable {NodeId EdgeId : Type}

/-- `contained_nodes` of region `i`. -/
def containedAt (tree : SeseTree NodeId EdgeId) (i : Nat) : List NodeId :=
  (tree.regions[i]?.map fun region => region.containedNodes).getD []

/-- The regions form a tree below region 0, in which every region is the disjoint union of what it
owns and of its children. -/
structure Decomposes (tree : SeseTree NodeId EdgeId) : Prop where
  nonempty : tree.regions ≠ []
  parent_none : ∀ (i : Nat) region, tree.regions[i]? = some region → (region.parent = none ↔ i = 0)
  parent_lt : ∀ (i : Nat) region p, tree.regions[i]? = some region → region.parent = some p → p < i
  /-- A region occurs once among its parent's children, and among no other's. -/
  listed : ∀ (i : Nat) region p, tree.regions[i]? = some region → region.parent = some p →
    ∀ (q : Nat) other, tree.regions[q]? = some other →
      other.children.count i = if q = p then 1 else 0
  children : ∀ (i : Nat) region, tree.regions[i]? = some region → ∀ j ∈ region.children,
    ∃ child, tree.regions[j]? = some child ∧ child.parent = some i
  nodup : ∀ region ∈ tree.regions, region.containedNodes.Nodup
  union : ∀ region ∈ tree.regions,
    (region.nodes ++ region.children.flatMap (containedAt tree)).Perm region.containedNodes

section

variable {ids : List NodeId} {root : NodeId} {sets : List (List Nat)}
  {cs : List (SeseCandidate NodeId EdgeId)}

/-- The sets number the nodes of the regions. -/
def Numbered (ids : List NodeId) (root : NodeId) (sets : List (List Nat))
    (cs : List (SeseCandidate NodeId EdgeId)) : Prop :=
  (rootRegion ids :: cs.map regionOf).map (fun region => region.containedNodes) =
    sets.map fun nodes => nodes.map fun u => ids.getD u root

theorem Numbered.length (h : Numbered ids root sets cs) :
    (treeOf ids sets cs).regions.length = sets.length := by
  have hlen := congrArg List.length h
  rw [List.length_map, List.length_map] at hlen
  rw [treeOf, List.length_mapIdx, hlen]

theorem ownedBy_zipIdx (root : NodeId) (i : Nat) :
    ownedBy sets ids.zipIdx i =
      ((List.range ids.length).filter fun v => ownerOf sets v = i).map fun u => ids.getD u root := by
  have hzip : ids.zipIdx = (List.range ids.length).map fun u => (ids.getD u root, u) := by
    refine List.ext_getElem? fun j => ?_
    rw [List.getElem?_zipIdx, List.getElem?_map]
    rcases Nat.lt_or_ge j ids.length with hj | hj
    · rw [List.getElem?_range hj, List.getElem?_eq_getElem hj]
      simp [List.getElem?_eq_getElem hj]
    · rw [List.getElem?_eq_none hj, List.getElem?_eq_none (by simpa using hj)]
      rfl
  rw [ownedBy, hzip, List.filter_map, List.map_map]
  rfl

theorem Numbered.region (h : Numbered ids root sets cs) {i : Nat}
    {region : SeseRegion NodeId EdgeId} (hi : (treeOf ids sets cs).regions[i]? = some region) :
    i < sets.length ∧ region.parent = (if i = 0 then none else some (parentOf sets i)) ∧
      region.children = childrenOf sets i ∧
      region.nodes = ((List.range ids.length).filter fun v => ownerOf sets v = i).map
        (fun u => ids.getD u root) ∧
      region.containedNodes = (sets.getD i []).map fun u => ids.getD u root := by
  have hlt : i < sets.length := by
    rw [← h.length]
    exact (List.getElem?_eq_some_iff.1 hi).1
  rw [treeOf, List.getElem?_mapIdx] at hi
  obtain ⟨base, hbase, rfl⟩ := Option.map_eq_some_iff.1 hi
  refine ⟨hlt, rfl, rfl, ownedBy_zipIdx root i, ?_⟩
  have hget := congrArg (fun l => l[i]?) h
  simp only [List.getElem?_map, hbase, List.getElem?_eq_getElem hlt] at hget
  rw [List.getD_eq_getElem _ _ hlt]
  exact Option.some.inj hget

theorem Numbered.exists_region (h : Numbered ids root sets cs) {i : Nat} (hi : i < sets.length) :
    ∃ region, (treeOf ids sets cs).regions[i]? = some region := by
  rw [← h.length] at hi
  exact ⟨_, List.getElem?_eq_getElem hi⟩

theorem Numbered.containedAt (h : Numbered ids root sets cs) (i : Nat) :
    containedAt (treeOf ids sets cs) i = (sets.getD i []).map fun u => ids.getD u root := by
  rw [Sese.containedAt]
  cases hi : (treeOf ids sets cs).regions[i]? with
  | none =>
      rw [List.getElem?_eq_none_iff, h.length] at hi
      rw [List.getD_eq_default _ _ hi]
      rfl
  | some region => exact (h.region hi).2.2.2.2

/-- A tree of sets that differ decomposes. -/
theorem Family.decomposes (h : Family ids.length sets) (hdistinct : sets.Nodup) (hids : ids.Nodup)
    (hnum : Numbered ids root sets cs) : Decomposes (treeOf ids sets cs) := by
  have hne : sets ≠ [] := List.ne_nil_of_mem (List.mem_of_getElem? h.head)
  constructor
  · rw [← List.length_pos_iff, hnum.length]
    exact List.length_pos_iff.2 hne
  · intro i region hi
    rw [(hnum.region hi).2.1]
    by_cases hzero : i = 0
    · simp [hzero]
    · simp [hzero]
  · intro i region p hi hp
    rw [(hnum.region hi).2.1] at hp
    obtain ⟨hzero, hp⟩ := Option.ite_none_left_eq_some.1 hp
    rw [← Option.some.inj hp]
    exact parentOf_lt hne (Nat.pos_of_ne_zero hzero)
  · intro i region p hi hp q other hq
    obtain ⟨hlt, hparent, -⟩ := hnum.region hi
    rw [hparent] at hp
    obtain ⟨hzero, hp⟩ := Option.ite_none_left_eq_some.1 hp
    -- Only the list of its parent names the region.
    have hmem : i ∈ childrenOf sets q ↔ q = p := by
      rw [mem_childrenOf, Option.some.inj hp, and_iff_right hlt,
        and_iff_right (Nat.pos_of_ne_zero hzero), eq_comm]
    rw [(hnum.region hq).2.2.1, List.Nodup.count (childrenOf_sorted sets q).nodup]
    exact if_congr hmem rfl rfl
  · intro i region hi j hj
    rw [(hnum.region hi).2.2.1] at hj
    obtain ⟨hlt, hpos, hparent⟩ := mem_childrenOf.1 hj
    obtain ⟨child, hchild⟩ := hnum.exists_region hlt
    refine ⟨child, hchild, ?_⟩
    rw [(hnum.region hchild).2.1, if_neg (Nat.ne_of_gt hpos), hparent]
  · intro region hmem
    obtain ⟨i, hi⟩ := List.mem_iff_getElem?.1 hmem
    obtain ⟨hlt, -, -, -, hcontained⟩ := hnum.region hi
    have hset : sets.getD i [] ∈ sets := by
      rw [List.getD_eq_getElem _ _ hlt]
      exact List.getElem_mem hlt
    rw [hcontained]
    refine (h.nodup _ hset).map_on fun u hu w hw heq => ?_
    exact getD_inj _ hids (h.bound _ hset u hu) (h.bound _ hset w hw) heq
  · intro region hmem
    obtain ⟨i, hi⟩ := List.mem_iff_getElem?.1 hmem
    obtain ⟨hlt, -, hchildren, hnodes, hcontained⟩ := hnum.region hi
    rw [hchildren, hnodes, hcontained]
    have hperm := (h.perm hdistinct hlt).map fun u => ids.getD u root
    have hsets : containedAt (treeOf ids sets cs) =
        fun j => (sets.getD j []).map fun u => ids.getD u root := funext hnum.containedAt
    rw [List.map_append, List.map_flatMap] at hperm
    rwa [hsets]

/-- A region with the set of an earlier one owns nothing and has no children. -/
theorem not_decomposes (hnum : Numbered ids root sets cs) {i j : Nat} {set : List Nat}
    (hij : i < j) (hi : sets[i]? = some set) (hj : sets[j]? = some set) (hset : set ≠ []) :
    ¬ Decomposes (treeOf ids sets cs) := by
  intro h
  obtain ⟨region, hregion⟩ := hnum.exists_region (List.getElem?_eq_some_iff.1 hj).1
  obtain ⟨-, -, hchildren, hnodes, hcontained⟩ := hnum.region hregion
  have hunion := h.union region (List.mem_of_getElem? hregion)
  have hnone : ((List.range ids.length).filter fun v => ownerOf sets v = j) = [] := by
    rw [List.filter_eq_nil_iff]
    intro v _ hv
    exact deepest_ne _ hij hi hj (of_decide_eq_true hv)
  have hleaf : childrenOf sets j = [] := by
    rw [List.eq_nil_iff_forall_not_mem]
    intro k hk
    obtain ⟨-, hpos, hparent⟩ := mem_childrenOf.1 hk
    have hjk := parentOf_lt (List.ne_nil_of_mem (List.mem_of_getElem? hi)) hpos
    rw [hparent] at hjk
    refine deepest_ne set hij ?_ ?_ hparent
    · rw [List.getElem?_take_of_lt (hij.trans hjk), hi]
    · rw [List.getElem?_take_of_lt hjk, hj]
  rw [hnodes, hchildren, hcontained, hnone, hleaf, List.getD_eq_getElem?_getD, hj] at hunion
  exact hset (List.map_eq_nil_iff.1 hunion.nil_eq.symm)

/-- Sets that differ are regions that differ in their nodes. -/
theorem Family.nodup_iff (h : Family ids.length sets) (hids : ids.Nodup)
    (hnum : Numbered ids root sets cs) :
    sets.Nodup ↔ (ids :: cs.map fun c => c.containedNodes).Nodup := by
  have hnames : (ids :: cs.map fun c => c.containedNodes) =
      sets.map fun nodes => nodes.map fun u => ids.getD u root := by
    rw [← hnum, List.map_cons, List.map_map]
    rfl
  rw [hnames]
  constructor
  · intro hdistinct
    refine hdistinct.map_on fun s hs t ht heq => ?_
    refine List.ext_getElem (by simpa using congrArg List.length heq) fun i hi hi' => ?_
    refine getD_inj root hids (h.bound s hs _ (List.getElem_mem hi))
      (h.bound t ht _ (List.getElem_mem hi')) ?_
    have hget := congrArg (fun l => l[i]?) heq
    simpa [List.getElem?_eq_getElem hi, List.getElem?_eq_getElem hi'] using hget
  · exact List.Nodup.of_map _

/-- The tree decomposes exactly when no two regions have the same nodes. -/
theorem Family.decomposes_iff (h : Family ids.length sets) (hids : ids.Nodup)
    (hnum : Numbered ids root sets cs) : Decomposes (treeOf ids sets cs) ↔
      (ids :: cs.map fun c => c.containedNodes).Nodup := by
  rw [← h.nodup_iff hids hnum]
  constructor
  · intro hdecomposes
    rw [List.Nodup, List.pairwise_iff_getElem]
    intro i j hi hj hij heq
    have hset := h.nonempty _ (List.getElem_mem hi)
    exact not_decomposes hnum hij (List.getElem?_eq_getElem hi)
      (heq ▸ List.getElem?_eq_getElem hj) hset hdecomposes
  · exact fun hdistinct => h.decomposes hdistinct hids hnum

end

end Sese
end Jstd
