import Jstd.Dominator.Tree
import Jstd.Foundation.Reroot

/-!
# A subtree of the dominator tree

Below a node `v` the tree computed from the root says what the tree computed from `v` says: the
same immediate dominators, the same frontiers, the dominators that come after `v`.  So the analysis
of a part that is entered at one node does not depend on what is around it.

The children lists of the tree from `v` may be longer: what `v` dominates when control starts there
need not be dominated by it from the root.
-/

namespace Jstd
namespace Dominator

open Foundation

variable {N : Type} [DecidableEq N] {g : Cfg N} {root v n c : N} {tree below : DominatorTree N}

/-! ## Two trees of one graph -/

namespace DominatorTree.Computed

/-- The nodes below another, which is reachable, are reachable. -/
theorem reachable_of_below (h : tree.Computed g root) {order : HashOrder N}
    (hv : g.Reachable root v) (hbelow : tree.Below order v n) : g.Reachable root n := by
  cases hbelow with
  | refl => exact hv
  | tail _ hchild => exact ((h.idom_iff _ _).1 ((tree.mem_childrenOf order).1 hchild)).1

theorem idom_below (h : tree.Computed g root) (h' : below.Computed g v)
    (hn : g.Reachable root n) (hvn : Dominates g.Edge root v n) (hne : n ≠ v) :
    tree.immediateDominator n = below.immediateDominator n := by
  have hroot : n ≠ root := by
    rintro rfl
    exact hne (List.mem_singleton.1 (hvn [n] (.single n))).symm
  refine Option.ext fun d => ?_
  calc tree.idom.get? n = some d
      ↔ g.Reachable root n ∧ n ≠ root ∧ IsIdom g.Edge root d n := h.idom_iff n d
    _ ↔ IsIdom g.Edge root d n := by simp [hn, hroot]
    _ ↔ IsIdom g.Edge v d n := IsIdom.reroot_iff hvn hn hne.symm
    _ ↔ g.Reachable v n ∧ n ≠ v ∧ IsIdom g.Edge v d n := by
        have hreach : g.Reachable v n := hvn.reaches_from hn
        simp [hreach, hne]
    _ ↔ below.idom.get? n = some d := (h'.idom_iff n d).symm

/-- A child of a node below `v` is a child in the tree from `v`; it is below `v` again. -/
theorem child_below_iff (h : tree.Computed g root) (h' : below.Computed g v)
    (hfinite : {n | g.Reachable root n}.Finite) (order order' : HashOrder N)
    (hv : g.Reachable root v) (hbelow : tree.Below order v n) :
    c ∈ tree.childrenOf order n ↔ c ∈ below.childrenOf order' n ∧ tree.Below order v c := by
  have hdom : ∀ {m}, tree.Below order v m → g.Reachable root m ∧ Dominates g.Edge root v m := by
    intro m hm
    have hreach := h.reachable_of_below hv hm
    exact ⟨hreach, (h.below_iff hfinite order hreach).1 hm⟩
  -- `v` is no child of what is below it.
  have hne : c ∈ tree.childrenOf order n ∨ c ∈ below.childrenOf order' n → c ≠ v := by
    rintro (hc | hc) rfl
    · obtain ⟨hreach, -, hidom⟩ := (h.idom_iff c n).1 ((tree.mem_childrenOf order).1 hc)
      exact hidom.not_dominates hreach (hdom hbelow).2
    · exact ((h'.idom_iff c n).1 ((below.mem_childrenOf order').1 hc)).2.1 rfl
  constructor
  · intro hc
    have hcbelow : tree.Below order v c := hbelow.tail hc
    have hsame := h.idom_below h' (hdom hcbelow).1 (hdom hcbelow).2 (hne (.inl hc))
    refine ⟨(below.mem_childrenOf order').2 ?_, hcbelow⟩
    exact hsame.symm.trans ((tree.mem_childrenOf order).1 hc)
  · rintro ⟨hc, hcbelow⟩
    have hsame := h.idom_below h' (hdom hcbelow).1 (hdom hcbelow).2 (hne (.inr hc))
    exact (tree.mem_childrenOf order).2 (hsame.trans ((below.mem_childrenOf order').1 hc))

/-- The set of a node below `v`: the dominators of `v`, and those from `v` on. -/
theorem dominatorSet_below (h : tree.Computed g root) (h' : below.Computed g v)
    (hfinite : {n | g.Reachable root n}.Finite) (hfinite' : {n | g.Reachable v n}.Finite)
    {fuel : Nat} (hfuel : {n | g.Reachable root n}.ncard < fuel)
    (hfuel' : {n | g.Reachable v n}.ncard < fuel) (order order' : HashOrder N)
    (hn : g.Reachable root n) (hvn : Dominates g.Edge root v n) :
    ∃ above set, tree.dominatorSet fuel order v = .ok (some above) ∧
      below.dominatorSet fuel order' n = .ok (some set) ∧
      tree.dominatorSet fuel order n = .ok (some (above ∪ set)) ∧ above ∩ set = {v} := by
  have hv : g.Reachable root v := hvn.reaches hn
  have hn' : g.Reachable v n := hvn.reaches_from hn
  -- Either tree has a set for each node that its own root reaches.
  have answer : ∀ {t : DominatorTree N} {r m : N}, t.Computed g r →
      {n | g.Reachable r n}.Finite → {n | g.Reachable r n}.ncard < fuel → g.Reachable r m →
      ∀ order, ∃ set, t.dominatorSet fuel order m = .ok (some set) ∧
        ∀ d, d ∈ set ↔ Dominates g.Edge r d m := by
    intro t r m ht hfin hfu hm order
    obtain ⟨answer, hrun, hsome, hnone⟩ := ht.dominatorSet_eq hfin hfu order m
    cases answer with
    | none => exact absurd hm (hnone rfl)
    | some set => exact ⟨set, hrun, (hsome set rfl).2⟩
  obtain ⟨above, habove, hmem⟩ := answer h hfinite hfuel hv order
  obtain ⟨set, hset, hmem'⟩ := answer h' hfinite' hfuel' hn' order'
  obtain ⟨all, hall, hmemall⟩ := answer h hfinite hfuel hn order
  refine ⟨above, set, habove, hset, ?_, ?_⟩
  · rw [hall]
    refine congrArg (fun set => Except.ok (some set)) (Finset.ext fun d => ?_)
    rw [hmemall, Finset.mem_union, hmem, hmem', hvn.reroot_iff]
  · refine Finset.ext fun d => ?_
    rw [Finset.mem_inter, hmem, hmem', Finset.mem_singleton]
    constructor
    · rintro ⟨hdv, hdn⟩
      exact hvn.eq_of_both hn hdv hdn
    · rintro rfl
      exact ⟨.refl root d, .root d n⟩

theorem dominatorFrontier_below (h : tree.Computed g root) (h' : below.Computed g v)
    (hfinite : {n | g.Reachable root n}.Finite) (hfinite' : {n | g.Reachable v n}.Finite)
    {fuel : Nat} (hfuel : {n | g.Reachable root n}.ncard < fuel)
    (hfuel' : {n | g.Reachable v n}.ncard < fuel) (order order' : HashOrder N)
    (hv : g.Reachable root v) :
    ∃ f f', tree.dominatorFrontier fuel order = .ok f ∧
      below.dominatorFrontier fuel order' = .ok f' ∧
      ∀ n y, tree.Below order v n → tree.Below order v y → y ≠ v → (Holds f n y ↔ Holds f' n y) := by
  obtain ⟨f, hrun, -, hholds⟩ := dominatorFrontier_spec h hfinite hfuel order
  obtain ⟨f', hrun', -, hholds'⟩ := dominatorFrontier_spec h' hfinite' hfuel' order'
  refine ⟨f, f', hrun, hrun', fun n y hn hy hne => ?_⟩
  have hreach := h.reachable_of_below hv hn
  have hreachy := h.reachable_of_below hv hy
  have hvn := (h.below_iff hfinite order hreach).1 hn
  have hvy := (h.below_iff hfinite order hreachy).1 hy
  have hroot : y ≠ root := by
    rintro rfl
    exact hne (List.mem_singleton.1 (hvy [y] (.single y))).symm
  have hfrom : g.Reachable v y := hvy.reaches_from hreachy
  rw [hholds, hholds', InFrontier.reroot_iff hvn hvy hreach hreachy hne.symm]
  simp [hreachy, hfrom, hroot, hne]

end DominatorTree.Computed

/-! ## The subtree -/

/-- What `below`, the tree from `v`, says of the nodes below `v` in `tree`. -/
structure Continues (fuel : Nat) (v : N) (tree below : DominatorTree N)
    (order order' : HashOrder N) : Prop where
  idom : ∀ n, tree.Below order v n → n ≠ v →
    tree.immediateDominator n = below.immediateDominator n
  children : ∀ n c, tree.Below order v n →
    (c ∈ tree.childrenOf order n ↔ c ∈ below.childrenOf order' n ∧ tree.Below order v c)
  sets : ∀ n, tree.Below order v n → ∃ above set,
    tree.dominatorSet fuel order v = .ok (some above) ∧
    below.dominatorSet fuel order' n = .ok (some set) ∧
    tree.dominatorSet fuel order n = .ok (some (above ∪ set)) ∧ above ∩ set = {v}
  frontier : ∃ f f', tree.dominatorFrontier fuel order = .ok f ∧
    below.dominatorFrontier fuel order' = .ok f' ∧
    ∀ n y, tree.Below order v n → tree.Below order v y → y ≠ v → (Holds f n y ↔ Holds f' n y)

/-- The subtree of any reachable node is what it dominates, and is what the algorithm computes from
that node. -/
theorem computeDominators_subtree (g : Cfg N) (root v : N) (hv : g.Reachable root v)
    (hfinite : {n | g.Reachable root n}.Finite) :
    ∃ enough, ∀ fuel, enough ≤ fuel → ∃ tree below, computeDominators fuel g root = .ok tree ∧
      computeDominators fuel g v = .ok below ∧
      ∀ order order',
        (∀ n, tree.Below order v n ↔ g.Reachable root n ∧ Dominates g.Edge root v n) ∧
        Continues fuel v tree below order order' := by
  have hsub : {n | g.Reachable v n} ⊆ {n | g.Reachable root n} :=
    fun n hn => Relation.ReflTransGen.trans hv hn
  have hfinite' := hfinite.subset hsub
  obtain ⟨enough, hcomputed⟩ := computeDominators_spec g root hfinite
  obtain ⟨enough', hcomputed'⟩ := computeDominators_spec g v hfinite'
  refine ⟨enough + enough' + {n | g.Reachable root n}.ncard + {n | g.Reachable v n}.ncard + 1, ?_⟩
  intro fuel hfuel
  obtain ⟨tree, hrun, h⟩ := hcomputed fuel (by omega)
  obtain ⟨below, hrun', h'⟩ := hcomputed' fuel (by omega)
  refine ⟨tree, below, hrun, hrun', fun order order' => ?_⟩
  have hdom : ∀ n, tree.Below order v n ↔ g.Reachable root n ∧ Dominates g.Edge root v n := by
    intro n
    constructor
    · intro hn
      have hreach := h.reachable_of_below hv hn
      exact ⟨hreach, (h.below_iff hfinite order hreach).1 hn⟩
    · rintro ⟨hreach, hvn⟩
      exact (h.below_iff hfinite order hreach).2 hvn
  refine ⟨hdom, ?_, ?_, ?_, ?_⟩
  · intro n hn hne
    exact h.idom_below h' ((hdom n).1 hn).1 ((hdom n).1 hn).2 hne
  · intro n c hn
    exact h.child_below_iff h' hfinite order order' hv hn
  · intro n hn
    exact h.dominatorSet_below h' hfinite hfinite' (by omega) (by omega) order order'
      ((hdom n).1 hn).1 ((hdom n).1 hn).2
  · exact h.dominatorFrontier_below h' hfinite hfinite' (by omega) (by omega) order order' hv

theorem computeDominators_subtree_diamond :
    ∃ enough, ∀ fuel, enough ≤ fuel → ∃ tree below, computeDominators fuel diamond 0 = .ok tree ∧
      computeDominators fuel diamond 1 = .ok below ∧
      ∀ order order',
        (∀ n, tree.Below order 1 n ↔ diamond.Reachable 0 n ∧ Dominates diamond.Edge 0 1 n) ∧
        Continues fuel 1 tree below order order' :=
  computeDominators_subtree diamond 0 1 (.single (by simp [Cfg.Edge, diamond]))
    ((Set.finite_Iic 3).subset fun _ h => diamond_reachable_le h)

end Dominator
end Jstd
