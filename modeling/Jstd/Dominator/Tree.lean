import Mathlib.Data.List.Perm.Basic
import Jstd.Dominator.Frontier

/-!
# The dominator tree — children, subtrees, and what decides them

The source turns the map of immediate dominators around once, on the first call of `children_of`.
Walking down the lists it makes leads from a node to exactly what it dominates
(`Computed.below_iff`), so the tree answers as its dominator sets do.

What the tree says depends on the edges between reachable nodes alone (`Computed.idom_eq`): not on
the order in which successors are listed, nor how often, nor on the order of a hash table.
-/

namespace Jstd
namespace Dominator

open Foundation

variable {N : Type} [DecidableEq N]

/-! ## As the source computes it -/

/-- `for (&n, &parent) in &self.idom { map.entry(parent).or_default().push(n); }`. -/
def fileChildren (idom : HashMap N N) : List N → HashMap N (List N) → HashMap N (List N)
  | [], map => map
  | n :: ns, map =>
      match idom.get? n with
      | some parent => fileChildren idom ns (map.insert parent ((map.get? parent).getD [] ++ [n]))
      | none => fileChildren idom ns map

namespace DominatorTree

def childrenMap (self : DominatorTree N) (order : HashOrder N) : HashMap N (List N) :=
  fileChildren self.idom (order.list self.idom.keys) .empty

def childrenOf (self : DominatorTree N) (order : HashOrder N) (node : N) : List N :=
  ((self.childrenMap order).get? node).getD []

/-- `n` is in the subtree of `d`: some walk down the children lists leads to it. -/
def Below (self : DominatorTree N) (order : HashOrder N) (d n : N) : Prop :=
  Relation.ReflTransGen (fun parent child => child ∈ self.childrenOf order parent) d n

end DominatorTree

/-! ## The children lists -/

/-- Every node is filed behind those that are there, under its immediate dominator. -/
theorem fileChildren_spec (idom : HashMap N N) (ns : List N) :
    ∀ (map : HashMap N (List N)) (d : N), ((fileChildren idom ns map).get? d).getD [] =
      (map.get? d).getD [] ++ ns.filter fun n => idom.get? n = some d := by
  induction ns with
  | nil =>
      intro map d
      rw [fileChildren, List.filter_nil, List.append_nil]
  | cons n ns ih =>
      intro map d
      cases hn : idom.get? n with
      | none => simp [fileChildren, hn, ih]
      | some parent =>
          by_cases hd : parent = d
          · subst hd
            simp [fileChildren, hn, ih]
          · simp [fileChildren, hn, ih, HashMap.get?_insert, hd, Ne.symm hd]

namespace DominatorTree

variable (tree : DominatorTree N) (order : HashOrder N) {d n : N}

theorem childrenOf_eq (d : N) :
    tree.childrenOf order d =
      (order.list tree.idom.keys).filter fun n => tree.idom.get? n = some d := by
  rw [childrenOf, childrenMap, fileChildren_spec, HashMap.get?_empty]
  rfl

theorem mem_childrenOf : n ∈ tree.childrenOf order d ↔ tree.idom.get? n = some d := by
  rw [childrenOf_eq, List.mem_filter, order.mem_list, decide_eq_true_eq, and_iff_right_iff_imp]
  exact HashMap.mem_keys_of_get?

theorem nodup_childrenOf (d : N) : (tree.childrenOf order d).Nodup := by
  rw [childrenOf_eq]
  exact (order.nodup _).filter _

end DominatorTree

variable {g g' : Cfg N} {root d n : N} {tree tree' : DominatorTree N}

namespace DominatorTree.Computed

/-- The subtree of a node is what it dominates. -/
theorem below_iff (h : tree.Computed g root) (hfinite : {n | g.Reachable root n}.Finite)
    (order : HashOrder N) (hn : g.Reachable root n) :
    tree.Below order d n ↔ Dominates g.Edge root d n := by
  constructor
  · intro hbelow
    induction hbelow with
    | refl => exact .refl root d
    | @tail parent child _ hchild ih =>
        have hidom := ((h.idom_iff child parent).1 ((tree.mem_childrenOf order).1 hchild)).2.2
        exact (ih (hidom.dominates.reaches hn)).trans hidom.dominates
  · -- Up the tree, from a node to one with fewer dominators.
    intro hdom
    induction hk : {d | Dominates g.Edge root d n}.ncard using Nat.strong_induction_on
      generalizing n with
    | _ k ih =>
        by_cases hdn : d = n
        · subst hdn
          exact .refl
        · have hroot : n ≠ root := by
            rintro rfl
            exact hdn (List.mem_singleton.1 (hdom [n] (.single n)))
          obtain ⟨parent, hparent⟩ := h.exists_idom n hn hroot
          have hidom := ((h.idom_iff n parent).1 hparent).2.2
          have hfewer := hidom.ncard_lt hn hfinite
          have hup := ih _ (by omega) (hidom.dominates.reaches hn) (hidom.last d hdn hdom) rfl
          exact .tail hup ((tree.mem_childrenOf order).2 hparent)

/-- The answers of `dominator_set`, as an equation. -/
theorem dominatorSet_eq (h : tree.Computed g root) (hfinite : {n | g.Reachable root n}.Finite)
    {fuel : Nat} (hfuel : {n | g.Reachable root n}.ncard < fuel) (order : HashOrder N) (n : N) :
    ∃ answer, tree.dominatorSet fuel order n = .ok answer ∧
      (∀ set, answer = some set →
        g.Reachable root n ∧ ∀ d, d ∈ set ↔ Dominates g.Edge root d n) ∧
      (answer = none → ¬ g.Reachable root n) := by
  obtain ⟨sets, hsets, hin, hout⟩ := computeDominatorSets_spec h hfinite hfuel order
  refine ⟨sets.get? n, by rw [DominatorTree.dominatorSet, hsets]; rfl, ?_, ?_⟩
  · intro set hset
    have hn : g.Reachable root n := by
      by_contra hn
      rw [hout n hn] at hset
      cases hset
    obtain ⟨set', hset', hmem⟩ := hin n hn
    rw [hset] at hset'
    cases hset'
    exact ⟨hn, hmem⟩
  · intro hnone hn
    obtain ⟨set, hset, -⟩ := hin n hn
    rw [hset] at hnone
    cases hnone

theorem dominates_eq (h : tree.Computed g root) (hfinite : {n | g.Reachable root n}.Finite)
    {fuel : Nat} (hfuel : {n | g.Reachable root n}.ncard < fuel) (order : HashOrder N) (d n : N) :
    ∃ answer, tree.dominates fuel order d n = .ok answer ∧
      (answer = true ↔ g.Reachable root n ∧ Dominates g.Edge root d n) := by
  obtain ⟨answer, hrun, hsome, hnone⟩ := h.dominatorSet_eq hfinite hfuel order n
  refine ⟨_, by rw [DominatorTree.dominates, hrun]; rfl, ?_⟩
  cases answer with
  | none => simp [hnone rfl]
  | some set =>
      obtain ⟨hn, hmem⟩ := hsome set rfl
      simp [hn, hmem]

end DominatorTree.Computed

/-- `children_of` lists what has the node as its immediate dominator.  Following it from a node meets
what `dominates` says it dominates; every node but the root is the child of one other, and all of
them are below the root. -/
theorem childrenOf_spans (g : Cfg N) (root : N) (hfinite : {n | g.Reachable root n}.Finite) :
    ∃ enough, ∀ fuel, enough ≤ fuel → ∃ tree, computeDominators fuel g root = .ok tree ∧
      ∀ order order' : HashOrder N,
        (∀ d n, n ∈ tree.childrenOf order d ↔ tree.immediateDominator n = some d) ∧
        (∀ n, tree.Below order tree.root n ↔ g.Reachable root n) ∧
        (∀ d n, g.Reachable root n → ∃ answer, tree.dominates fuel order' d n = .ok answer ∧
          (answer = true ↔ tree.Below order d n)) ∧
        (∀ d, (tree.childrenOf order d).Nodup) ∧
        ∀ n, (∃! parent, n ∈ tree.childrenOf order parent) ↔ g.Reachable root n ∧ n ≠ root := by
  obtain ⟨enough, h⟩ := computeDominators_spec g root hfinite
  refine ⟨enough + {n | g.Reachable root n}.ncard + 1, ?_⟩
  intro fuel hfuel
  obtain ⟨tree, hrun, htree⟩ := h fuel (by omega)
  refine ⟨tree, hrun, ?_⟩
  intro order order'
  refine ⟨fun d n => tree.mem_childrenOf order, ?_, ?_, tree.nodup_childrenOf order, ?_⟩
  · intro n
    rw [htree.root_eq]
    constructor
    · intro hbelow
      -- The last step of the walk is to a child, and children are reachable.
      cases hbelow with
      | refl => exact .refl
      | tail _ hchild => exact ((htree.idom_iff _ _).1 ((tree.mem_childrenOf order).1 hchild)).1
    · intro hn
      exact (htree.below_iff hfinite order hn).2 (.root root n)
  · intro d n hn
    obtain ⟨answer, hanswer, hiff⟩ :=
      htree.dominates_eq hfinite (by omega : _ < fuel) order' d n
    refine ⟨answer, hanswer, ?_⟩
    rw [hiff, htree.below_iff hfinite order hn, and_iff_right hn]
  · intro n
    constructor
    · rintro ⟨parent, hparent, -⟩
      have hidom := (htree.idom_iff n parent).1 ((tree.mem_childrenOf order).1 hparent)
      exact ⟨hidom.1, hidom.2.1⟩
    · rintro ⟨hn, hne⟩
      obtain ⟨parent, hparent⟩ := htree.exists_idom n hn hne
      refine ⟨parent, (tree.mem_childrenOf order).2 hparent, ?_⟩
      intro other hother
      have hget := (tree.mem_childrenOf order).1 hother
      rw [hparent] at hget
      exact (Option.some.inj hget).symm

theorem childrenOf_spans_diamond :
    ∃ enough, ∀ fuel, enough ≤ fuel → ∃ tree, computeDominators fuel diamond 0 = .ok tree ∧
      ∀ order order' : HashOrder Nat,
        (∀ d n, n ∈ tree.childrenOf order d ↔ tree.immediateDominator n = some d) ∧
        (∀ n, tree.Below order tree.root n ↔ diamond.Reachable 0 n) ∧
        (∀ d n, diamond.Reachable 0 n → ∃ answer, tree.dominates fuel order' d n = .ok answer ∧
          (answer = true ↔ tree.Below order d n)) ∧
        (∀ d, (tree.childrenOf order d).Nodup) ∧
        ∀ n, (∃! parent, n ∈ tree.childrenOf order parent) ↔ diamond.Reachable 0 n ∧ n ≠ 0 :=
  childrenOf_spans diamond 0 ((Set.finite_Iic 3).subset fun _ h => diamond_reachable_le h)

/-! ## Walks, as the tree tells them -/

/-- `dominator_set` has none to give: nothing leads to the node. -/
def DominatorTree.Misses (fuel : Nat) (tree : DominatorTree N) (n : N) : Prop :=
  ∀ order : HashOrder N, tree.dominatorSet fuel order n = .ok none

/-- Whatever leads to `n` passes `d`: the dominator set of `n`, if there is one, holds `d`. -/
def DominatorTree.Passes (fuel : Nat) (tree : DominatorTree N) (d n : N) : Prop :=
  ∀ order : HashOrder N, ∃ answer, tree.dominatorSet fuel order n = .ok answer ∧
    ∀ set, answer = some set → d ∈ set

namespace DominatorTree.Computed

theorem misses_iff (h : tree.Computed g root) (hfinite : {n | g.Reachable root n}.Finite)
    {fuel : Nat} (hfuel : {n | g.Reachable root n}.ncard < fuel) :
    tree.Misses fuel n ↔ ¬ g.Reachable root n := by
  constructor
  · intro hmiss hn
    obtain ⟨answer, hrun, -, hnone⟩ := h.dominatorSet_eq hfinite hfuel ⟨Finset.toList,
      Finset.nodup_toList, Finset.mem_toList⟩ n
    rw [hmiss] at hrun
    cases hrun
    exact hnone rfl hn
  · intro hn order
    obtain ⟨answer, hrun, hsome, -⟩ := h.dominatorSet_eq hfinite hfuel order n
    cases answer with
    | none => exact hrun
    | some set => exact absurd (hsome set rfl).1 hn

theorem passes_iff (h : tree.Computed g root) (hfinite : {n | g.Reachable root n}.Finite)
    {fuel : Nat} (hfuel : {n | g.Reachable root n}.ncard < fuel) :
    tree.Passes fuel d n ↔ Dominates g.Edge root d n := by
  constructor
  · intro hpass l hl
    obtain ⟨answer, hrun, hmem⟩ := hpass ⟨Finset.toList, Finset.nodup_toList, Finset.mem_toList⟩
    obtain ⟨answer', hrun', hsome, hnone⟩ := h.dominatorSet_eq hfinite hfuel _ n
    obtain rfl := Except.ok.inj (hrun.symm.trans hrun')
    cases answer with
    | none => exact absurd hl.reaches (hnone rfl)
    | some set => exact ((hsome set rfl).2 d).1 (hmem set rfl) l hl
  · intro hdom order
    obtain ⟨answer, hrun, hsome, -⟩ := h.dominatorSet_eq hfinite hfuel order n
    exact ⟨answer, hrun, fun set hset => ((hsome set hset).2 d).2 hdom⟩

end DominatorTree.Computed

/-- The sets of the tree tell which walks there are. -/
structure DominatorTree.Tells (fuel : Nat) (tree : DominatorTree N) (g : Cfg N) (root : N) :
    Prop where
  misses : ∀ n, tree.Misses fuel n ↔ ¬ g.Reachable root n
  passes : ∀ d n, tree.Passes fuel d n ↔ Dominates g.Edge root d n

theorem DominatorTree.Computed.tells (h : tree.Computed g root)
    (hfinite : {n | g.Reachable root n}.Finite) {fuel : Nat}
    (hfuel : {n | g.Reachable root n}.ncard < fuel) : tree.Tells fuel g root :=
  ⟨fun _ => h.misses_iff hfinite hfuel, fun _ _ => h.passes_iff hfinite hfuel⟩

/-! ## What the tree depends on -/

/-- Frontiers that hold the same pairs for the same nodes are one map. -/
theorem Frontier.ext {f f' : Frontier N} (hkeys : ∀ n, n ∈ f.keys ↔ n ∈ f'.keys)
    (hholds : ∀ n y, Holds f n y ↔ Holds f' n y) : f = f' := by
  refine HashMap.ext fun n => ?_
  have hkey := hkeys n
  rw [HashMap.mem_keys_iff, HashMap.mem_keys_iff] at hkey
  have hset := hholds n
  simp only [Holds] at hset
  cases hf : f.get? n with
  | none =>
      cases hf' : f'.get? n with
      | none => rfl
      | some set' => simp [hf, hf'] at hkey
  | some set =>
      cases hf' : f'.get? n with
      | none => simp [hf, hf'] at hkey
      | some set' =>
          refine congrArg some (Finset.ext fun y => ?_)
          simpa [hf, hf'] using hset y

namespace DominatorTree.Computed

theorem idom_eq (h : tree.Computed g root) (h' : tree'.Computed g' root)
    (hsame : SameDominance g.Edge g'.Edge root) : tree.idom = tree'.idom := by
  refine HashMap.ext fun n => Option.ext fun d => ?_
  calc tree.idom.get? n = some d
      ↔ Reaches g.Edge root n ∧ n ≠ root ∧ IsIdom g.Edge root d n := h.idom_iff n d
    _ ↔ Reaches g.Edge root n ∧ n ≠ root ∧ IsIdom g'.Edge root d n :=
        and_congr_right fun hn => and_congr_right fun _ => hsame.isIdom_iff hn
    _ ↔ Reaches g'.Edge root n ∧ n ≠ root ∧ IsIdom g'.Edge root d n := by
        rw [hsame.reaches_iff]
    _ ↔ tree'.idom.get? n = some d := (h'.idom_iff n d).symm

theorem dominatorSet_agree (h : tree.Computed g root) (h' : tree'.Computed g' root)
    (hsame : SameDominance g.Edge g'.Edge root) (hfinite : {n | g.Reachable root n}.Finite)
    (hfinite' : {n | g'.Reachable root n}.Finite) {fuel : Nat}
    (hfuel : {n | g.Reachable root n}.ncard < fuel)
    (hfuel' : {n | g'.Reachable root n}.ncard < fuel) (order order' : HashOrder N) (n : N) :
    tree.dominatorSet fuel order n = tree'.dominatorSet fuel order' n := by
  obtain ⟨answer, hrun, hsome, hnone⟩ := h.dominatorSet_eq hfinite hfuel order n
  obtain ⟨answer', hrun', hsome', hnone'⟩ := h'.dominatorSet_eq hfinite' hfuel' order' n
  have hreach : g.Reachable root n ↔ g'.Reachable root n := hsame.reaches_iff n
  rw [hrun, hrun']
  refine congrArg Except.ok ?_
  cases answer with
  | none =>
      cases answer' with
      | none => rfl
      | some set' => exact absurd (hreach.2 (hsome' set' rfl).1) (hnone rfl)
  | some set =>
      cases answer' with
      | none => exact absurd (hreach.1 (hsome set rfl).1) (hnone' rfl)
      | some set' =>
          refine congrArg some (Finset.ext fun d => ?_)
          rw [(hsome set rfl).2, (hsome' set' rfl).2, hsame.dominates_iff (hsome set rfl).1]

theorem dominatorFrontier_agree (h : tree.Computed g root) (h' : tree'.Computed g' root)
    (hagree : AgreeFrom g.Edge g'.Edge root) (hfinite : {n | g.Reachable root n}.Finite)
    (hfinite' : {n | g'.Reachable root n}.Finite) {fuel : Nat}
    (hfuel : {n | g.Reachable root n}.ncard < fuel)
    (hfuel' : {n | g'.Reachable root n}.ncard < fuel) (order order' : HashOrder N) :
    tree.dominatorFrontier fuel order = tree'.dominatorFrontier fuel order' := by
  obtain ⟨f, hrun, hkeys, hholds⟩ := dominatorFrontier_spec h hfinite hfuel order
  obtain ⟨f', hrun', hkeys', hholds'⟩ := dominatorFrontier_spec h' hfinite' hfuel' order'
  have hreach : ∀ n, g.Reachable root n ↔ g'.Reachable root n := fun n => hagree.reaches_iff
  rw [hrun, hrun']
  refine congrArg Except.ok (Frontier.ext ?_ ?_)
  · intro n
    rw [hkeys, hkeys', hreach]
  · intro n y
    rw [hholds, hholds', hreach, hagree.inFrontier_iff]

theorem childrenOf_agree (h : tree.Computed g root) (h' : tree'.Computed g' root)
    (hsame : SameDominance g.Edge g'.Edge root) (order order' : HashOrder N) (n : N) :
    (tree.childrenOf order n).Perm (tree'.childrenOf order' n) := by
  refine (List.perm_ext_iff_of_nodup (tree.nodup_childrenOf order n)
    (tree'.nodup_childrenOf order' n)).2 fun c => ?_
  rw [tree.mem_childrenOf, tree'.mem_childrenOf, h.idom_eq h' hsame]

end DominatorTree.Computed

/-- Two graphs with the same edges between reachable nodes have the same dominator tree, in every
respect but the order of children, whatever the order of successors and of hash tables. -/
theorem computeDominators_agree (g g' : Cfg N) (root : N)
    (hagree : AgreeFrom g.Edge g'.Edge root) (hfinite : {n | g.Reachable root n}.Finite) :
    ∃ enough, ∀ fuel, enough ≤ fuel → ∃ tree tree', computeDominators fuel g root = .ok tree ∧
      computeDominators fuel g' root = .ok tree' ∧ tree.Tells fuel g root ∧
      tree'.Tells fuel g' root ∧ tree.idom = tree'.idom ∧
      ∀ order order' : HashOrder N,
        (∀ n, tree.dominatorSet fuel order n = tree'.dominatorSet fuel order' n) ∧
        tree.dominatorFrontier fuel order = tree'.dominatorFrontier fuel order' ∧
        ∀ n, (tree.childrenOf order n).Perm (tree'.childrenOf order' n) := by
  have hnodes : {n | g.Reachable root n} = {n | g'.Reachable root n} :=
    Set.ext fun n => hagree.reaches_iff
  have hfinite' := hnodes ▸ hfinite
  obtain ⟨enough, h⟩ := computeDominators_spec g root hfinite
  obtain ⟨enough', h'⟩ := computeDominators_spec g' root hfinite'
  refine ⟨enough + enough' + {n | g.Reachable root n}.ncard + 1, ?_⟩
  intro fuel hfuel
  have hcard : {n | g.Reachable root n}.ncard < fuel := by omega
  have hcard' := hnodes ▸ hcard
  obtain ⟨tree, hrun, htree⟩ := h fuel (by omega)
  obtain ⟨tree', hrun', htree'⟩ := h' fuel (by omega)
  have hsame := hagree.sameDominance
  refine ⟨tree, tree', hrun, hrun', htree.tells hfinite hcard, htree'.tells hfinite' hcard',
    htree.idom_eq htree' hsame, ?_⟩
  intro order order'
  exact ⟨htree.dominatorSet_agree htree' hsame hfinite hfinite' hcard hcard' order order',
    htree.dominatorFrontier_agree htree' hagree hfinite hfinite' hcard hcard' order order',
    htree.childrenOf_agree htree' hsame order order'⟩

/-- The diamond with its edges listed once, and a node that nothing leads to. -/
def tidyDiamond : Cfg Nat where
  successors n := if n = 0 then [1, 2] else if n < 4 then [3] else if n = 4 then [2, 4] else []

theorem diamond_agree : AgreeFrom diamond.Edge tidyDiamond.Edge 0 := by
  intro u hu w
  have hle := diamond_reachable_le hu
  match u, hle with
  | 0, _ =>
      simp [Cfg.Edge, diamond, tidyDiamond]
      omega
  | 1, _ | 2, _ | 3, _ => simp [Cfg.Edge, diamond, tidyDiamond]

theorem computeDominators_agree_diamond :
    ∃ enough, ∀ fuel, enough ≤ fuel → ∃ tree tree', computeDominators fuel diamond 0 = .ok tree ∧
      computeDominators fuel tidyDiamond 0 = .ok tree' ∧ tree.Tells fuel diamond 0 ∧
      tree'.Tells fuel tidyDiamond 0 ∧ tree.idom = tree'.idom ∧
      ∀ order order' : HashOrder Nat,
        (∀ n, tree.dominatorSet fuel order n = tree'.dominatorSet fuel order' n) ∧
        tree.dominatorFrontier fuel order = tree'.dominatorFrontier fuel order' ∧
        ∀ n, (tree.childrenOf order n).Perm (tree'.childrenOf order' n) :=
  computeDominators_agree diamond tidyDiamond 0 diamond_agree
    ((Set.finite_Iic 3).subset fun _ h => diamond_reachable_le h)

end Dominator
end Jstd
