import Jstd.Dominator.Correctness
import Jstd.Foundation.Dominance

/-!
# Dominator sets — the paths up the dominator tree

The source reads the sets off the immediate dominators with a loop that has no visited check.  It
ends because an immediate dominator has fewer dominators than what it dominates, and collects
exactly the dominators (`chase_spec`).
-/

namespace Jstd
namespace Dominator

open Foundation

variable {N : Type} [DecidableEq N]

/-! ## As the source computes them -/

/-- The `loop` of `compute_dominator_sets`. -/
def chase (idom : HashMap N N) : Nat → N → Finset N → Except Panic (Finset N)
  | 0, _, _ => .error .outOfFuel
  | fuel + 1, cursor, set =>
      match idom.get? cursor with
      | some parent => chase idom fuel parent (insert cursor set)
      | none => .ok (insert cursor set)

/-- `for n in all_nodes { .. out.insert(n, set) }`. -/
def chaseAll (fuel : Nat) (idom : HashMap N N) :
    List N → HashMap N (Finset N) → Except Panic (HashMap N (Finset N))
  | [], out => .ok out
  | n :: ns, out => do
      let set ← chase idom fuel n ∅
      chaseAll fuel idom ns (out.insert n set)

def computeDominatorSets (fuel : Nat) (order : HashOrder N) (idom : HashMap N N) (root : N) :
    Except Panic (HashMap N (Finset N)) :=
  chaseAll fuel idom (order.list (insert root idom.keys)) .empty

namespace DominatorTree

def dominatorSet (self : DominatorTree N) (fuel : Nat) (order : HashOrder N) (node : N) :
    Except Panic (Option (Finset N)) := do
  let sets ← computeDominatorSets fuel order self.idom self.root
  return sets.get? node

def dominates (self : DominatorTree N) (fuel : Nat) (order : HashOrder N) (dominator node : N) :
    Except Panic Bool := do
  let set ← self.dominatorSet fuel order node
  return match set with
    | some s => decide (dominator ∈ s)
    | none => false

end DominatorTree

/-! ## What they are -/

variable {g : Cfg N} {root : N} {tree : DominatorTree N}

/-- The nodes of the tree are the reachable ones. -/
theorem DominatorTree.Computed.mem_nodes (h : tree.Computed g root) {n : N} :
    n ∈ insert tree.root tree.idom.keys ↔ g.Reachable root n := by
  rw [Finset.mem_insert, h.root_eq]
  constructor
  · rintro (rfl | hn)
    · exact .refl
    · obtain ⟨d, hd⟩ := HashMap.exists_of_mem_keys hn
      exact ((h.idom_iff n d).1 hd).1
  · intro hn
    by_cases hne : n = root
    · exact .inl hne
    · obtain ⟨d, hd⟩ := h.exists_idom n hn hne
      exact .inr (HashMap.mem_keys_of_get? hd)

/-- The loop collects the dominators of the node it starts from. -/
theorem chase_spec (h : tree.Computed g root) (hfinite : {n | g.Reachable root n}.Finite)
    (fuel : Nat) :
    ∀ cursor set, g.Reachable root cursor →
      {d | Dominates g.Edge root d cursor}.ncard < fuel →
      ∃ out, chase tree.idom fuel cursor set = .ok out ∧
        ∀ d, d ∈ out ↔ d ∈ set ∨ Dominates g.Edge root d cursor := by
  -- The dominators of the cursor get fewer with every turn.
  induction fuel with
  | zero =>
      intro cursor set _ hlt
      exact absurd hlt (Nat.not_lt_zero _)
  | succ fuel ih =>
      intro cursor set hcursor hlt
      by_cases hroot : cursor = root
      · subst hroot
        have hnone : tree.idom.get? cursor = none := h.idom_eq_none.2 (.inl rfl)
        refine ⟨insert cursor set, by rw [chase, hnone], ?_⟩
        intro d
        rw [Finset.mem_insert, or_comm]
        refine or_congr_right ⟨?_, ?_⟩
        · rintro rfl
          exact .refl _ _
        · intro hd
          exact List.mem_singleton.1 (hd [cursor] (.single cursor))
      · obtain ⟨parent, hparent⟩ := h.exists_idom cursor hcursor hroot
        have hidom := ((h.idom_iff cursor parent).1 hparent).2.2
        have hfewer := hidom.ncard_lt hcursor hfinite
        obtain ⟨out, hout, hmem⟩ := ih parent (insert cursor set)
          (hidom.dominates.reaches hcursor) (by omega)
        refine ⟨out, by rw [chase, hparent]; exact hout, ?_⟩
        intro d
        rw [hmem, Finset.mem_insert, hidom.dominates_iff, or_assoc, or_left_comm]

theorem chaseAll_spec (h : tree.Computed g root) (hfinite : {n | g.Reachable root n}.Finite)
    {fuel : Nat} (hfuel : {n | g.Reachable root n}.ncard < fuel) (ns : List N)
    (hns : ∀ n ∈ ns, g.Reachable root n) :
    ∀ out, ∃ sets, chaseAll fuel tree.idom ns out = .ok sets ∧
      (∀ n ∈ ns, ∃ set, sets.get? n = some set ∧
        ∀ d, d ∈ set ↔ Dominates g.Edge root d n) ∧
      ∀ n, n ∉ ns → sets.get? n = out.get? n := by
  induction ns with
  | nil =>
      intro out
      exact ⟨out, rfl, by simp, fun n _ => rfl⟩
  | cons n ns ih =>
      intro out
      have hn := hns n List.mem_cons_self
      have hle : {d | Dominates g.Edge root d n}.ncard ≤ {n | g.Reachable root n}.ncard :=
        Set.ncard_le_ncard (fun d hd => hd.reaches hn) hfinite
      obtain ⟨set, hset, hmem⟩ := chase_spec h hfinite fuel n ∅ hn (by omega)
      obtain ⟨sets, hsets, hin, hout⟩ :=
        ih (fun m hm => hns m (List.mem_cons_of_mem n hm)) (out.insert n set)
      refine ⟨sets, ?_, ?_, ?_⟩
      · rw [chaseAll, hset]
        exact hsets
      -- A node that is listed again gets its set again.
      · intro m hm
        by_cases hlater : m ∈ ns
        · exact hin m hlater
        · obtain rfl : m = n := (List.mem_cons.1 hm).resolve_right hlater
          refine ⟨set, by rw [hout m hlater, HashMap.get?_insert_self], ?_⟩
          intro d
          rw [hmem, or_iff_right (Finset.notMem_empty d)]
      · intro m hm
        rw [List.mem_cons, not_or] at hm
        rw [hout m hm.2, HashMap.get?_insert, if_neg hm.1]

/-- A set for every reachable node and no other, with its dominators in it. -/
theorem computeDominatorSets_spec (h : tree.Computed g root)
    (hfinite : {n | g.Reachable root n}.Finite) {fuel : Nat}
    (hfuel : {n | g.Reachable root n}.ncard < fuel) (order : HashOrder N) :
    ∃ sets, computeDominatorSets fuel order tree.idom tree.root = .ok sets ∧
      (∀ n, g.Reachable root n → ∃ set, sets.get? n = some set ∧
        ∀ d, d ∈ set ↔ Dominates g.Edge root d n) ∧
      ∀ n, ¬ g.Reachable root n → sets.get? n = none := by
  have hmem : ∀ n, n ∈ order.list (insert tree.root tree.idom.keys) ↔ g.Reachable root n := by
    intro n
    rw [order.mem_list, h.mem_nodes]
  obtain ⟨sets, hsets, hin, hout⟩ := chaseAll_spec h hfinite hfuel
    (order.list (insert tree.root tree.idom.keys)) (fun n hn => (hmem n).1 hn) .empty
  refine ⟨sets, hsets, fun n hn => hin n ((hmem n).2 hn), ?_⟩
  intro n hn
  rw [hout n (mt (hmem n).1 hn), HashMap.get?_empty]

/-- The tree of every finite graph answers with the dominators of the graph, whatever the order its
nodes are visited in. -/
theorem computeDominators_dominatorSet (g : Cfg N) (root : N)
    (hfinite : {n | g.Reachable root n}.Finite) :
    ∃ enough, ∀ fuel, enough ≤ fuel → ∃ tree, computeDominators fuel g root = .ok tree ∧
      ∀ order : HashOrder N,
        (∀ d n, ∃ answer, tree.dominates fuel order d n = .ok answer ∧
          (answer = true ↔ g.Reachable root n ∧ Dominates g.Edge root d n)) ∧
        (∀ n, g.Reachable root n → ∃ set, tree.dominatorSet fuel order n = .ok (some set) ∧
          ∀ d, d ∈ set ↔ Dominates g.Edge root d n) ∧
        ∀ n, ¬ g.Reachable root n → tree.dominatorSet fuel order n = .ok none := by
  obtain ⟨enough, h⟩ := computeDominators_spec g root hfinite
  refine ⟨enough + {n | g.Reachable root n}.ncard + 1, ?_⟩
  intro fuel hfuel
  obtain ⟨tree, hrun, htree⟩ := h fuel (by omega)
  refine ⟨tree, hrun, ?_⟩
  intro order
  obtain ⟨sets, hsets, hin, hout⟩ :=
    computeDominatorSets_spec htree hfinite (by omega : _ < fuel) order
  have hset : ∀ n, tree.dominatorSet fuel order n = .ok (sets.get? n) := by
    intro n
    rw [DominatorTree.dominatorSet, hsets]
    rfl
  refine ⟨?_, ?_, ?_⟩
  · intro d n
    refine ⟨_, by rw [DominatorTree.dominates, hset]; rfl, ?_⟩
    by_cases hn : g.Reachable root n
    · obtain ⟨set, hget, hmem⟩ := hin n hn
      simp only [hget, decide_eq_true_eq, hmem, hn, true_and]
    · simp only [hout n hn, hn, false_and, Bool.false_eq_true]
  · intro n hn
    obtain ⟨set, hget, hmem⟩ := hin n hn
    exact ⟨set, by rw [hset, hget], hmem⟩
  · intro n hn
    rw [hset, hout n hn]

theorem computeDominators_dominatorSet_diamond :
    ∃ enough, ∀ fuel, enough ≤ fuel → ∃ tree, computeDominators fuel diamond 0 = .ok tree ∧
      ∀ order : HashOrder Nat,
        (∀ d n, ∃ answer, tree.dominates fuel order d n = .ok answer ∧
          (answer = true ↔ diamond.Reachable 0 n ∧ Dominates diamond.Edge 0 d n)) ∧
        (∀ n, diamond.Reachable 0 n → ∃ set, tree.dominatorSet fuel order n = .ok (some set) ∧
          ∀ d, d ∈ set ↔ Dominates diamond.Edge 0 d n) ∧
        ∀ n, ¬ diamond.Reachable 0 n → tree.dominatorSet fuel order n = .ok none :=
  computeDominators_dominatorSet diamond 0
    ((Set.finite_Iic 3).subset fun _ h => diamond_reachable_le h)

end Dominator
end Jstd
