import Jstd.Dominator.Tree
import Jstd.Foundation.Reroot

/-!
# The classical equations

Dominators and frontiers are usually computed from equations: the dominators of a node are itself
and what dominates all its predecessors; a frontier is what stops at a successor, and what the
frontiers of the children hand up.  Nothing in the source follows these equations.  The sets it
answers with solve them all the same, and the dominator sets are the greatest solution, where an
iteration from the full sets would end.
-/

namespace Jstd

open Foundation

/-! ## The equations of dominance -/

namespace Foundation

variable {V : Type} {E : V → V → Prop} {r d n : V}

/-- The right-hand side at `n`: `n` itself, and what is in all sets of reached predecessors. -/
def DominanceStep (E : V → V → Prop) (r : V) (X : V → Set V) (n : V) : Set V :=
  {d | d = n ∨ n ≠ r ∧ ∀ p, Reaches E r p → E p n → d ∈ X p}

theorem dominates_step : Dominates E r d n ↔
    d ∈ DominanceStep E r (fun n => {d | Dominates E r d n}) n := by
  constructor
  · intro hdn
    by_cases hne : d = n
    · exact .inl hne
    · refine .inr ⟨?_, fun p _ hpn => hdn.of_edge hne hpn⟩
      rintro rfl
      exact hne (List.mem_singleton.1 (hdn [n] (.single n)))
  · rintro (rfl | ⟨hne, hall⟩)
    · exact .refl r d
    · exact .of_preds hne hall

/-- The right-hand side reads the sets of reached vertices. -/
theorem dominanceStep_congr {X Y : V → Set V} (h : ∀ p, Reaches E r p → X p = Y p) (n : V) :
    DominanceStep E r X n = DominanceStep E r Y n := by
  ext d
  refine or_congr Iff.rfl (and_congr_right fun _ => forall_congr' fun p => ?_)
  exact forall_congr' fun hp => by rw [h p hp]

/-- Sets that their equations do not lose anything of hold dominators only. -/
theorem dominates_of_step {X : V → Set V} (hX : ∀ n, Reaches E r n → X n ⊆ DominanceStep E r X n)
    (hn : Reaches E r n) (hd : d ∈ X n) : Dominates E r d n := by
  rw [dominates_iff]
  rintro ⟨hne, hwalk⟩
  -- Back along a walk that avoids `d`, it stays in the sets, down to the root's.
  have main : d ∉ X n := by
    clear hd
    induction hwalk with
    | refl =>
        intro hd
        rcases hX r .refl hd with heq | ⟨hr, -⟩
        · exact hne heq.symm
        · exact hr rfl
    | @tail p n hwalk hstep ih =>
        have hp : Reaches E r p := Relation.ReflTransGen.mono (fun _ _ h => h.1) _ _ hwalk
        intro hd
        rcases hX n hn hd with heq | ⟨-, hall⟩
        · exact hstep.2 heq.symm
        · exact ih hp (hall p hp hstep.1)
  exact main hd

end Foundation

namespace Dominator

variable {N : Type} [DecidableEq N] {g : Cfg N} {root n y : N} {tree : DominatorTree N}

/-! ## Dominator sets -/

/-- `X` solves the equations at the reachable nodes, and holds every other solution, and whatever
the equations do not shrink. -/
structure GreatestSolution (g : Cfg N) (root : N) (X : N → Set N) : Prop where
  solves : ∀ n, g.Reachable root n → X n = DominanceStep g.Edge root X n
  greatest : ∀ Y : N → Set N, (∀ n, g.Reachable root n → Y n ⊆ DominanceStep g.Edge root Y n) →
    ∀ n, g.Reachable root n → Y n ⊆ X n

omit [DecidableEq N] in
theorem greatestSolution_dominates (g : Cfg N) (root : N) :
    GreatestSolution g root fun n => {d | Dominates g.Edge root d n} where
  solves _ _ := Set.ext fun _ => dominates_step
  greatest _ hY _ hn _ hd := dominates_of_step hY hn hd

omit [DecidableEq N] in
theorem GreatestSolution.congr {X Y : N → Set N} (h : GreatestSolution g root X)
    (hsame : ∀ n, g.Reachable root n → X n = Y n) : GreatestSolution g root Y where
  solves n hn := by
    calc Y n
      _ = X n := (hsame n hn).symm
      _ = DominanceStep g.Edge root X n := h.solves n hn
      _ = DominanceStep g.Edge root Y n := dominanceStep_congr hsame n
  greatest Z hZ n hn := by
    rw [← hsame n hn]
    exact h.greatest Z hZ n hn

/-! ## Frontiers -/

/-- What is in the frontier of `n` is a successor, or in the frontier of a child; of these, `n` does
not keep what it dominates immediately. -/
theorem DominatorTree.Computed.inFrontier_step (h : tree.Computed g root)
    (hfinite : {n | g.Reachable root n}.Finite) (order : HashOrder N) (hy : g.Reachable root y)
    (hne : y ≠ root) :
    InFrontier g.Edge root n y ↔ tree.immediateDominator y ≠ some n ∧
      (g.Reachable root n ∧ g.Edge n y ∨
        ∃ c ∈ tree.childrenOf order n, InFrontier g.Edge root c y) := by
  obtain ⟨i, hi⟩ := h.exists_idom y hy hne
  have hidom := ((h.idom_iff y i).1 hi).2.2
  have hget : tree.immediateDominator y = some i := hi
  have hchild : ∀ {c}, c ∈ tree.childrenOf order n →
      g.Reachable root c ∧ IsIdom g.Edge root n c := by
    intro c hc
    obtain ⟨hreach, -, hnc⟩ := (h.idom_iff c n).1 ((tree.mem_childrenOf order).1 hc)
    exact ⟨hreach, hnc⟩
  rw [hget, ne_eq, Option.some.injEq]
  constructor
  · rintro ⟨⟨p, hp, hpy, hnp⟩, hnot⟩
    refine ⟨?_, ?_⟩
    · rintro rfl
      exact hnot ⟨hidom.dominates, hidom.ne⟩
    · -- Down the tree from `n` to the predecessor of `y` it dominates.
      rcases Relation.ReflTransGen.cases_head ((h.below_iff hfinite order hp).2 hnp) with
        rfl | ⟨c, hc, hbelow⟩
      · exact .inl ⟨hp, hpy⟩
      · obtain ⟨hreach, hnc⟩ := hchild hc
        have hcp := (h.below_iff hfinite order hp).1 hbelow
        refine .inr ⟨c, hc, ⟨p, hp, hpy, hcp⟩, ?_⟩
        rintro ⟨hcy, -⟩
        refine hnot ⟨hnc.dominates.trans hcy, ?_⟩
        rintro rfl
        exact hnc.not_dominates hreach hcy
  · rintro ⟨hin, ⟨hn, hedge⟩ | ⟨c, hc, ⟨p, hp, hpy, hcp⟩, hnot⟩⟩
    · refine ⟨⟨n, hn, hedge, .refl root n⟩, ?_⟩
      rintro ⟨hny, hne'⟩
      exact hin ((hidom.dominates.of_edge hidom.ne hedge).antisymm hn (hidom.last n hne' hny))
    · obtain ⟨hreach, hnc⟩ := hchild hc
      refine ⟨⟨p, hp, hpy, hnc.dominates.trans hcp⟩, ?_⟩
      rintro ⟨hny, hne'⟩
      have hni := hidom.last n hne' hny
      have hip := hidom.dominates.of_edge hidom.ne hpy
      -- The child does not dominate `i`, so `i` is above it, between `n` and the child.
      have hci : ¬ Dominates g.Edge root c i := by
        intro hci
        refine hnot ⟨hci.trans hidom.dominates, ?_⟩
        rintro rfl
        exact hidom.not_dominates hy hci
      have hic := (hcp.comparable hip hp).resolve_left hci
      have hne'' : i ≠ c := by
        rintro rfl
        exact hci (.refl root i)
      have hn : g.Reachable root n := hnc.dominates.reaches hreach
      exact hin ((hnc.last i hne'' hic).antisymm hn hni)

/-! ## What the source answers -/

/-- From equations alone: the sets of `dominator_set` are the greatest solution of those of
dominance, `immediate_dominator` is the member that all other members but the node itself dominate,
`children_of` turns it around, and `dominator_frontier` solves those of frontiers, root aside. -/
theorem computeDominators_equations (g : Cfg N) (root : N)
    (hfinite : {n | g.Reachable root n}.Finite) :
    ∃ enough, ∀ fuel, enough ≤ fuel → ∃ tree, computeDominators fuel g root = .ok tree ∧
      ∀ order order' : HashOrder N,
        (∃ X : N → Finset N,
          (∀ n, g.Reachable root n → tree.dominatorSet fuel order n = .ok (some (X n))) ∧
          GreatestSolution g root (fun n => {d | d ∈ X n}) ∧
          ∀ n d, tree.immediateDominator n = some d ↔ g.Reachable root n ∧ n ≠ root ∧
            d ∈ X n ∧ d ≠ n ∧ ∀ c ∈ X n, c ≠ n → c ∈ X d) ∧
        (∀ n c, c ∈ tree.childrenOf order' n ↔ tree.immediateDominator c = some n) ∧
        ∃ f, tree.dominatorFrontier fuel order = .ok f ∧ ∀ n y, y ≠ root →
          (Holds f n y ↔ tree.immediateDominator y ≠ some n ∧
            (g.Reachable root n ∧ g.Edge n y ∨ ∃ c ∈ tree.childrenOf order' n, Holds f c y)) := by
  obtain ⟨enough, h⟩ := computeDominators_spec g root hfinite
  refine ⟨enough + {n | g.Reachable root n}.ncard + 1, ?_⟩
  intro fuel hfuel
  have hcard : {n | g.Reachable root n}.ncard < fuel := by omega
  obtain ⟨tree, hrun, htree⟩ := h fuel (by omega)
  refine ⟨tree, hrun, fun order order' => ⟨?_, fun n c => tree.mem_childrenOf order', ?_⟩⟩
  · have hanswer : ∀ n, ∃ set : Finset N, g.Reachable root n →
        tree.dominatorSet fuel order n = .ok (some set) ∧
          ∀ d, d ∈ set ↔ Dominates g.Edge root d n := by
      intro n
      obtain ⟨answer, hrun, hsome, hnone⟩ := htree.dominatorSet_eq hfinite hcard order n
      cases answer with
      | none => exact ⟨∅, fun hn => absurd hn (hnone rfl)⟩
      | some set => exact ⟨set, fun _ => ⟨hrun, (hsome set rfl).2⟩⟩
    -- All the sets at once: the equations relate those of different nodes.
    choose X hX using hanswer
    refine ⟨X, fun n hn => (hX n hn).1,
      (greatestSolution_dominates g root).congr fun n hn => ?_, fun n d => ?_⟩
    · exact Set.ext fun d => ((hX n hn).2 d).symm
    · refine (htree.idom_iff n d).trans (and_congr_right fun hn => and_congr_right fun _ => ?_)
      rw [(hX n hn).2]
      constructor
      · intro hidom
        refine ⟨hidom.dominates, hidom.ne, fun c hc hne => ?_⟩
        rw [(hX d (hidom.dominates.reaches hn)).2]
        exact hidom.last c hne (((hX n hn).2 c).1 hc)
      · rintro ⟨hdom, hne, hlast⟩
        refine ⟨hne, hdom, fun c hne hc => ?_⟩
        exact ((hX d (hdom.reaches hn)).2 c).1 (hlast c (((hX n hn).2 c).2 hc) hne)
  · obtain ⟨f, hf, -, hholds⟩ := dominatorFrontier_spec htree hfinite hcard order
    refine ⟨f, hf, fun n y hne => ?_⟩
    by_cases hy : g.Reachable root y
    · have hfrontier : ∀ m, Holds f m y ↔ InFrontier g.Edge root m y := fun m => by
        rw [hholds, and_iff_right hy, and_iff_right hne]
      simp only [hfrontier]
      exact htree.inFrontier_step hfinite order' hy hne
    · -- No set holds what is not reached, and no edge from a reached node leads to it.
      constructor
      · exact fun hheld => absurd ((hholds n y).1 hheld).1 hy
      · rintro ⟨-, ⟨hn, hedge⟩ | ⟨c, -, hheld⟩⟩
        · exact absurd (hn.tail hedge) hy
        · exact absurd ((hholds c y).1 hheld).1 hy

theorem computeDominators_equations_diamond :
    ∃ enough, ∀ fuel, enough ≤ fuel → ∃ tree, computeDominators fuel diamond 0 = .ok tree ∧
      ∀ order order' : HashOrder Nat,
        (∃ X : Nat → Finset Nat,
          (∀ n, diamond.Reachable 0 n → tree.dominatorSet fuel order n = .ok (some (X n))) ∧
          GreatestSolution diamond 0 (fun n => {d | d ∈ X n}) ∧
          ∀ n d, tree.immediateDominator n = some d ↔ diamond.Reachable 0 n ∧ n ≠ 0 ∧
            d ∈ X n ∧ d ≠ n ∧ ∀ c ∈ X n, c ≠ n → c ∈ X d) ∧
        (∀ n c, c ∈ tree.childrenOf order' n ↔ tree.immediateDominator c = some n) ∧
        ∃ f, tree.dominatorFrontier fuel order = .ok f ∧ ∀ n y, y ≠ 0 →
          (Holds f n y ↔ tree.immediateDominator y ≠ some n ∧
            (diamond.Reachable 0 n ∧ diamond.Edge n y ∨
              ∃ c ∈ tree.childrenOf order' n, Holds f c y)) :=
  computeDominators_equations diamond 0
    ((Set.finite_Iic 3).subset fun _ h => diamond_reachable_le h)

end Dominator
end Jstd
