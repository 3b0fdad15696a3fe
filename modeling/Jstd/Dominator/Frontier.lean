import Jstd.Dominator.Sets

/-!
# Dominance frontier — runners up the dominator tree

From every predecessor of a join point a runner climbs to the immediate dominator of the join point
and leaves the join point in the frontier of whatever it passes: of the nodes that dominate the
predecessor but not the immediate dominator (`runner_spec`).  That is the frontier by definition,
except at the root: a node without an immediate dominator is skipped, so an edge back to the root
leaves no trace (`dominatorFrontier_iff`).
-/

namespace Jstd
namespace Dominator

open Foundation

variable {N : Type} [DecidableEq N]

/-- The frontier while it is built. -/
abbrev Frontier (N : Type) : Type :=
  HashMap N (Finset N)

namespace DominatorTree

/-- `while runner != idom_n { .. }`. -/
def runner (self : DominatorTree N) (n idomN : N) : Nat → N → Method Panic (Frontier N) Unit
  | 0, _ => throw .outOfFuel
  | fuel + 1, node =>
      if node = idomN then pure ()
      else do
        modify fun frontier => frontier.insert node (insert n ((frontier.get? node).getD ∅))
        match self.idom.get? node with
        | some parent => runner self n idomN fuel parent
        | none => pure ()

/-- The body of `for (&n, preds) in &self.preds`. -/
def addJoin (self : DominatorTree N) (fuel : Nat) (n : N) : Method Panic (Frontier N) Unit :=
  match self.preds.get? n, self.idom.get? n with
  | some preds, some idomN =>
      if preds.length < 2 then pure () else Method.forEach (self.runner n idomN fuel) preds
  | _, _ => pure ()

/-- `all_nodes.iter().map(|&n| (n, HashSet::default())).collect()`. -/
def emptyFrontier : List N → Frontier N
  | [] => .empty
  | n :: ns => (emptyFrontier ns).insert n ∅

def dominatorFrontier (self : DominatorTree N) (fuel : Nat) (order : HashOrder N) :
    Except Panic (Frontier N) :=
  let frontier := emptyFrontier (order.list (insert self.root self.idom.keys))
  match (Method.forEach (self.addJoin fuel) (order.list self.preds.keys)).run frontier with
  | (.error e, _) => .error e
  | (.ok _, frontier) => .ok frontier

end DominatorTree

/-- `y` is in the frontier of `n`. -/
def Holds (frontier : Frontier N) (n y : N) : Prop :=
  ∃ set, frontier.get? n = some set ∧ y ∈ set

/-- The frontier as the documentation defines it, for the reachable nodes and no others. -/
structure IsFrontier (g : Cfg N) (root : N) (frontier : Frontier N) : Prop where
  mem_keys : ∀ n, n ∈ frontier.keys ↔ g.Reachable root n
  holds_iff : ∀ n y, g.Reachable root n → g.Reachable root y →
    (Holds frontier n y ↔ InFrontier g.Edge root n y)

/-! ## What the loops add -/

/-- `f'` is `f` with `y` added to the sets of all nodes that satisfy `P`. -/
structure Adds (f f' : Frontier N) (P : N → Prop) (y : N) : Prop where
  keys : ∀ n, n ∈ f'.keys ↔ n ∈ f.keys ∨ P n
  holds : ∀ n x, Holds f' n x ↔ Holds f n x ∨ x = y ∧ P n

namespace Adds

variable {f f₁ f₂ : Frontier N} {P Q : N → Prop} {y : N}

theorem refl (f : Frontier N) (y : N) : Adds f f (fun _ => False) y :=
  ⟨by simp, by simp⟩

theorem congr (h : Adds f f₁ P y) (hPQ : ∀ n, P n ↔ Q n) : Adds f f₁ Q y :=
  ⟨fun n => by rw [h.keys, hPQ], fun n x => by rw [h.holds, hPQ]⟩

theorem trans (h₁ : Adds f f₁ P y) (h₂ : Adds f₁ f₂ Q y) :
    Adds f f₂ (fun n => P n ∨ Q n) y := by
  constructor
  · intro n
    rw [h₂.keys, h₁.keys, or_assoc]
  · intro n x
    rw [h₂.holds, h₁.holds, or_assoc, ← and_or_left]

/-- `frontier.entry(node).or_default().insert(y)`. -/
theorem entry (f : Frontier N) (node y : N) :
    Adds f (f.insert node (insert y ((f.get? node).getD ∅))) (· = node) y := by
  constructor
  · intro n
    rw [HashMap.keys_insert, Finset.mem_insert, or_comm]
  · intro n x
    by_cases hn : n = node
    · subst hn
      have hold : Holds f n x ↔ x ∈ (f.get? n).getD ∅ := by
        rw [Holds]
        cases f.get? n with
        | none => simp
        | some set => simp
      simp only [Holds, HashMap.get?_insert_self, Option.some.injEq, exists_eq_left',
        Finset.mem_insert, and_true] at hold ⊢
      rw [hold, or_comm]
    · simp [Holds, HashMap.get?_insert, hn]

end Adds

variable {g : Cfg N} {root : N} {tree : DominatorTree N}

/-- The runner visits what dominates its start but not the node it climbs to. -/
theorem runner_spec (h : tree.Computed g root) (hfinite : {n | g.Reachable root n}.Finite)
    (n : N) {idomN : N} (fuel : Nat) :
    ∀ (node : N) (f : Frontier N), g.Reachable root node → Dominates g.Edge root idomN node →
      {d | Dominates g.Edge root d node}.ncard < fuel →
      ∃ f', (tree.runner n idomN fuel node).run f = (.ok (), f') ∧
        Adds f f' (fun m => Dominates g.Edge root m node ∧ ¬ Dominates g.Edge root m idomN) n := by
  -- The fuel outlasts the dominators that are left to climb.
  induction fuel with
  | zero =>
      intro node f _ _ hlt
      exact absurd hlt (Nat.not_lt_zero _)
  | succ fuel ih =>
      intro node f hnode hdom hlt
      by_cases hstop : node = idomN
      · subst hstop
        refine ⟨f, by rw [DominatorTree.runner, if_pos rfl]; rfl, (Adds.refl f n).congr ?_⟩
        intro m
        exact ⟨False.elim, fun hm => hm.2 hm.1⟩
      · have hroot : node ≠ root := by
          rintro rfl
          exact hstop (List.mem_singleton.1 (hdom [node] (.single node))).symm
        obtain ⟨parent, hparent⟩ := h.exists_idom node hnode hroot
        have hidom := ((h.idom_iff node parent).1 hparent).2.2
        have hfewer := hidom.ncard_lt hnode hfinite
        obtain ⟨f', hrun, hadds⟩ := ih parent
          (f.insert node (insert n ((f.get? node).getD ∅))) (hidom.dominates.reaches hnode)
          (hidom.last idomN (Ne.symm hstop) hdom) (by omega)
        refine ⟨f', ?_, ((Adds.entry f node n).trans hadds).congr ?_⟩
        · rw [DominatorTree.runner, if_neg hstop, Method.run_bind_modify, hparent]
          exact hrun
        · intro m
          rw [hidom.dominates_iff, or_and_right]
          refine or_congr_left ⟨?_, And.left⟩
          rintro rfl
          exact ⟨rfl, fun hm => hstop (hm.antisymm (hdom.reaches hnode) hdom)⟩

/-- One turn of the loop adds `n` wherever it belongs, unless it is the root. -/
theorem addJoin_spec (h : tree.Computed g root) (hfinite : {n | g.Reachable root n}.Finite)
    {fuel : Nat} (hfuel : {n | g.Reachable root n}.ncard < fuel) {n : N}
    (hn : g.Reachable root n) (f : Frontier N) :
    ∃ f', (tree.addJoin fuel n).run f = (.ok (), f') ∧
      Adds f f' (fun m => n ≠ root ∧ InFrontier g.Edge root m n) n := by
  by_cases hroot : n = root
  · -- The root has no immediate dominator, so the source skips it.
    have hnone : tree.idom.get? n = none := h.idom_eq_none.2 (.inl hroot)
    refine ⟨f, ?_, (Adds.refl f n).congr fun m => ⟨False.elim, fun hm => hm.1 hroot⟩⟩
    rw [DominatorTree.addJoin, hnone]
    cases tree.preds.get? n with
    | none => rfl
    | some preds => rfl
  · obtain ⟨idomN, hget⟩ := h.exists_idom n hn hroot
    obtain ⟨preds, hpreds, hmem⟩ := h.preds n hn hroot
    have hidom := ((h.idom_iff n idomN).1 hget).2.2
    rw [DominatorTree.addJoin, hpreds, hget]
    by_cases hlen : preds.length < 2
    · -- A single edge comes from the immediate dominator.
      obtain ⟨p, hp, hpn, -⟩ := exists_pred_not_dominated hn hroot
      have honly : ∀ u, g.Reachable root u → g.Edge u n → u = p := by
        intro u hu hun
        have hmemu := (hmem u).2 ⟨hu, hun⟩
        have hmemp := (hmem p).2 ⟨hp, hpn⟩
        match preds, hlen with
        | [q], _ => rw [List.mem_singleton.1 hmemu, List.mem_singleton.1 hmemp]
      refine ⟨f, by simp only [if_pos hlen]; rfl, (Adds.refl f n).congr fun m => ⟨False.elim, ?_⟩⟩
      rintro ⟨-, hm⟩
      exact hidom.not_inFrontier_of_unique hn hroot honly hm
    · simp only [if_neg hlen]
      obtain ⟨f', hrun, hadds⟩ := Method.forEach_induction (tree.runner n idomN fuel)
        (fun done f' => Adds f f' (fun m => ∃ p ∈ done,
          Dominates g.Edge root m p ∧ ¬ Dominates g.Edge root m idomN) n)
        preds (s := f) ((Adds.refl f n).congr (by simp)) (by
          intro done p rest f₁ hsplit hadds
          obtain ⟨hp, hpn⟩ := (hmem p).1 (by rw [hsplit]; simp)
          have hle : {d | Dominates g.Edge root d p}.ncard ≤ {n | g.Reachable root n}.ncard :=
            Set.ncard_le_ncard (fun d hd => hd.reaches hp) hfinite
          obtain ⟨f', hrun, hadds'⟩ := runner_spec h hfinite n fuel p f₁ hp
            (hidom.dominates.of_edge hidom.ne hpn) (by omega)
          exact ⟨f', hrun, (hadds.trans hadds').congr (by simp [or_and_right, exists_or])⟩)
      refine ⟨f', hrun, hadds.congr ?_⟩
      intro m
      rw [hidom.inFrontier_iff hn, and_iff_right hroot]
      simp only [hmem, and_assoc]
      exact Iff.rfl

theorem mem_keys_emptyFrontier {ns : List N} {n : N} :
    n ∈ (DominatorTree.emptyFrontier ns).keys ↔ n ∈ ns := by
  induction ns with
  | nil => simp [DominatorTree.emptyFrontier, HashMap.mem_keys_iff]
  | cons m ns ih => rw [DominatorTree.emptyFrontier, HashMap.keys_insert, Finset.mem_insert, ih,
      List.mem_cons]

theorem not_holds_emptyFrontier {ns : List N} {n y : N} :
    ¬ Holds (DominatorTree.emptyFrontier ns) n y := by
  induction ns with
  | nil =>
      rintro ⟨set, hget, -⟩
      rw [DominatorTree.emptyFrontier, HashMap.get?_empty] at hget
      cases hget
  | cons m ns ih =>
      rintro ⟨set, hget, hy⟩
      rw [DominatorTree.emptyFrontier, HashMap.get?_insert] at hget
      split at hget
      · cases hget
        exact Finset.notMem_empty y hy
      · exact ih ⟨set, hget, hy⟩

/-- What is computed is the frontier, with the root left out of every set. -/
theorem dominatorFrontier_spec (h : tree.Computed g root)
    (hfinite : {n | g.Reachable root n}.Finite) {fuel : Nat}
    (hfuel : {n | g.Reachable root n}.ncard < fuel) (order : HashOrder N) :
    ∃ frontier, tree.dominatorFrontier fuel order = .ok frontier ∧
      (∀ n, n ∈ frontier.keys ↔ g.Reachable root n) ∧
      ∀ n y, Holds frontier n y ↔
        g.Reachable root y ∧ y ≠ root ∧ InFrontier g.Edge root n y := by
  have hreach : ∀ n ∈ order.list tree.preds.keys, g.Reachable root n := by
    intro n hn
    obtain ⟨nodes, hnodes⟩ := HashMap.exists_of_mem_keys (order.mem_list.1 hn)
    exact h.preds_reachable n nodes hnodes
  obtain ⟨frontier, hrun, hkeys, hholds⟩ := Method.forEach_induction (tree.addJoin fuel)
    -- After some of the joins, the pairs in the map are those of these joins.
    (fun done f => (∀ n, n ∈ f.keys ↔ g.Reachable root n) ∧
      ∀ n y, Holds f n y ↔ y ∈ done ∧ y ≠ root ∧ InFrontier g.Edge root n y)
    (order.list tree.preds.keys)
    (s := DominatorTree.emptyFrontier (order.list (insert tree.root tree.idom.keys)))
    ⟨fun n => by rw [mem_keys_emptyFrontier, order.mem_list, h.mem_nodes],
      fun n y => by simp [not_holds_emptyFrontier]⟩
    (by
      rintro done y rest f hsplit ⟨hkeys, hholds⟩
      have hy := hreach y (by rw [hsplit]; simp)
      obtain ⟨f', hrun, hadds⟩ := addJoin_spec h hfinite hfuel hy f
      refine ⟨f', hrun, ?_, ?_⟩
      · intro n
        rw [hadds.keys, hkeys, or_iff_left_iff_imp]
        rintro ⟨-, ⟨p, hp, -, hn⟩, -⟩
        exact hn.reaches hp
      · intro n x
        rw [hadds.holds, hholds, List.mem_append, List.mem_singleton, or_and_right]
        refine or_congr_right ?_
        constructor
        · rintro ⟨rfl, hx⟩
          exact ⟨rfl, hx⟩
        · rintro ⟨rfl, hx⟩
          exact ⟨rfl, hx⟩)
  refine ⟨frontier, by rw [DominatorTree.dominatorFrontier, hrun], hkeys, ?_⟩
  intro n y
  rw [hholds]
  constructor
  · rintro ⟨hy, hne, hn⟩
    exact ⟨hreach y hy, hne, hn⟩
  · rintro ⟨hy, hne, hn⟩
    -- A reachable node other than the root has an entry, so the loop meets it.
    obtain ⟨nodes, hnodes, -⟩ := h.preds y hy hne
    exact ⟨order.mem_list.2 (HashMap.mem_keys_of_get? hnodes), hne, hn⟩

/-- For every finite graph the frontier is the documented one if and only if no reachable node
leads back to the root. -/
theorem dominatorFrontier_iff (g : Cfg N) (root : N)
    (hfinite : {n | g.Reachable root n}.Finite) :
    ∃ enough, ∀ fuel, enough ≤ fuel → ∃ tree, computeDominators fuel g root = .ok tree ∧
      ∀ order : HashOrder N, ∃ frontier, tree.dominatorFrontier fuel order = .ok frontier ∧
        (IsFrontier g root frontier ↔ ∀ p, g.Reachable root p → ¬ g.Edge p root) := by
  obtain ⟨enough, h⟩ := computeDominators_spec g root hfinite
  refine ⟨enough + {n | g.Reachable root n}.ncard + 1, ?_⟩
  intro fuel hfuel
  obtain ⟨tree, hrun, htree⟩ := h fuel (by omega)
  refine ⟨tree, hrun, ?_⟩
  intro order
  obtain ⟨frontier, hfrontier, hkeys, hholds⟩ :=
    dominatorFrontier_spec htree hfinite (by omega : _ < fuel) order
  refine ⟨frontier, hfrontier, ?_, ?_⟩
  -- An edge back puts the root in its own frontier, and the code has skipped it.
  · intro hmatch p hp hedge
    have hroot := (hmatch.holds_iff root root .refl .refl).2
      (inFrontier_root_iff.2 ⟨p, hp, hedge, .root root p⟩)
    exact ((hholds root root).1 hroot).2.1 rfl
  -- Without one the root is in no frontier.
  · intro hnone
    refine ⟨hkeys, ?_⟩
    intro n y _ hy
    rw [hholds, and_iff_right hy, and_iff_right_iff_imp]
    rintro hn rfl
    obtain ⟨p, hp, hedge, -⟩ := inFrontier_root_iff.1 hn
    exact hnone p hp hedge

/-- The condition at work on the diamond, where the join point gets its frontiers. -/
theorem dominatorFrontier_iff_diamond :
    ∃ enough, ∀ fuel, enough ≤ fuel → ∃ tree, computeDominators fuel diamond 0 = .ok tree ∧
      ∀ order : HashOrder Nat, ∃ frontier, tree.dominatorFrontier fuel order = .ok frontier ∧
        (IsFrontier diamond 0 frontier ↔
          ∀ p, diamond.Reachable 0 p → ¬ diamond.Edge p 0) :=
  dominatorFrontier_iff diamond 0
    ((Set.finite_Iic 3).subset fun _ h => diamond_reachable_le h)

/-- A loop whose header is the root. -/
def rootLoop : Cfg Nat where
  successors n := if n = 0 then [1] else if n = 1 then [0] else []

theorem rootLoop_reachable_le {n : Nat} (h : rootLoop.Reachable 0 n) : n ≤ 1 := by
  induction h with
  | refl => exact Nat.zero_le 1
  | @tail u v _ huv _ =>
      simp only [Cfg.Edge, rootLoop] at huv
      split_ifs at huv <;> simp at huv <;> omega

/-- The header of that loop is missing from the frontier of the loop. -/
theorem rootLoop_not_isFrontier :
    ¬ ∀ order : HashOrder Nat, ∃ enough, ∀ fuel, enough ≤ fuel →
      ∃ tree frontier, computeDominators fuel rootLoop 0 = .ok tree ∧
        tree.dominatorFrontier fuel order = .ok frontier ∧ IsFrontier rootLoop 0 frontier := by
  intro hclaim
  have hfinite : {n | rootLoop.Reachable 0 n}.Finite :=
    (Set.finite_Iic 1).subset fun _ h => rootLoop_reachable_le h
  obtain ⟨enough, h⟩ := hclaim (.sorted Nat)
  obtain ⟨enough', h'⟩ := computeDominators_spec rootLoop 0 hfinite
  obtain ⟨tree, frontier, hrun, hfrontier, hmatch⟩ :=
    h (enough + enough' + {n | rootLoop.Reachable 0 n}.ncard + 1) (by omega)
  obtain ⟨tree', hrun', htree⟩ :=
    h' (enough + enough' + {n | rootLoop.Reachable 0 n}.ncard + 1) (by omega)
  rw [hrun] at hrun'
  cases hrun'
  obtain ⟨frontier', hfrontier', -, hholds⟩ := dominatorFrontier_spec htree hfinite
    (by omega : _ < enough + enough' + {n | rootLoop.Reachable 0 n}.ncard + 1) (.sorted Nat)
  rw [hfrontier] at hfrontier'
  cases hfrontier'
  have hedge : rootLoop.Edge 0 1 ∧ rootLoop.Edge 1 0 := by simp [Cfg.Edge, rootLoop]
  have hone : rootLoop.Reachable 0 1 := .single hedge.1
  have hin := (hmatch.holds_iff 1 0 hone .refl).2
    (inFrontier_root_iff.2 ⟨1, hone, hedge.2, .refl 0 1⟩)
  exact ((hholds 1 0).1 hin).2.1 rfl

end Dominator
end Jstd
