import Jstd.Foundation.Chaotic
import Jstd.Foundation.Dominance
import Jstd.PostDominator.Basic

/-!
# The sets are the post-dominators

The sets are the unknowns of a monotone system (`transfer`), and the sweeps a descending iteration
of it.  `Inv` holds between any two updates: no right-hand side exceeds its unknown, and no
post-dominator is lost.  A sweep that changes nothing leaves a solution, which holds nothing but
post-dominators; every other sweep shrinks a set.
-/

namespace Jstd
namespace PostDominator

open Foundation

variable {N : Type} [DecidableEq N]

/-- The edges into the node set. -/
def Within (g : Cfg N) (nodeSet : Finset N) (u v : N) : Prop :=
  g.Edge u v ∧ v ∈ nodeSet

/-- The set of a node. -/
def setAt (pdom : HashMap N (Finset N)) (n : N) : Finset N :=
  (pdom.get? n).getD ∅

/-- The right-hand side of the equation of a node. -/
def transfer (g : Cfg N) (nodeSet exitSet : Finset N) (X : N → Finset N) (n : N) : Finset N :=
  if n ∈ exitSet then {n}
  else insert n (intersectSets ((successorsIn g nodeSet n).map X))

/-! ## The system -/

theorem mem_retainAll {sets : List (Finset N)} {p : N} :
    ∀ {acc : Finset N}, p ∈ retainAll acc sets ↔ p ∈ acc ∧ ∀ set ∈ sets, p ∈ set := by
  induction sets with
  | nil => simp [retainAll]
  | cons set sets ih =>
      intro acc
      rw [retainAll, ih, Finset.mem_filter, List.forall_mem_cons, and_assoc]

theorem mem_intersectSets {sets : List (Finset N)} {p : N} :
    p ∈ intersectSets sets ↔ sets ≠ [] ∧ ∀ set ∈ sets, p ∈ set := by
  cases sets with
  | nil => simp [intersectSets]
  | cons first sets => simp [intersectSets, mem_retainAll]

variable {g : Cfg N} {nodeSet exitSet : Finset N}

theorem mem_successorsIn {u v : N} : v ∈ successorsIn g nodeSet u ↔ Within g nodeSet u v := by
  rw [successorsIn, List.mem_filter, decide_eq_true_eq]
  exact Iff.rfl

theorem mem_transfer {X : N → Finset N} {n p : N} :
    p ∈ transfer g nodeSet exitSet X n ↔
      p = n ∨ n ∉ exitSet ∧ (∃ w, Within g nodeSet n w) ∧
        ∀ w, Within g nodeSet n w → p ∈ X w := by
  rw [transfer]
  by_cases hexit : n ∈ exitSet
  · simp [hexit]
  · have hne : (successorsIn g nodeSet n).map X ≠ [] ↔ ∃ w, Within g nodeSet n w := by
      rw [Ne, List.map_eq_nil_iff, List.eq_nil_iff_forall_not_mem, not_forall]
      simp only [not_not, mem_successorsIn]
    rw [if_neg hexit, Finset.mem_insert, mem_intersectSets, hne, List.forall_mem_map]
    simp only [mem_successorsIn, hexit, not_false_eq_true, true_and]

theorem transfer_monoOn :
    Chaotic.MonoOn nodeSet (transfer g nodeSet exitSet) := by
  intro X Y hXY n _ p hp
  rw [mem_transfer] at hp ⊢
  refine hp.imp_right ?_
  rintro ⟨hexit, hsome, hall⟩
  exact ⟨hexit, hsome, fun w hw => hXY w hw.2 (hall w hw)⟩

/-- The post-dominators among the nodes. -/
noncomputable def postDominators (g : Cfg N) (nodeSet exitSet : Finset N) (n : N) : Finset N :=
  open Classical in
  nodeSet.filter fun p => PostDominates (Within g nodeSet) (· ∈ exitSet) p n

omit [DecidableEq N] in
theorem mem_postDominators {n p : N} :
    p ∈ postDominators g nodeSet exitSet n ↔
      p ∈ nodeSet ∧ PostDominates (Within g nodeSet) (· ∈ exitSet) p n := by
  classical
  rw [postDominators, Finset.mem_filter]

/-- They are below their right-hand sides. -/
theorem postDominators_le (n : N) :
    postDominators g nodeSet exitSet n ≤
      transfer g nodeSet exitSet (postDominators g nodeSet exitSet) n := by
  intro p hp
  obtain ⟨hmem, hpost⟩ := mem_postDominators.1 hp
  rw [mem_transfer]
  by_cases hexit : n ∈ exitSet
  · exact .inl ((postDominates_exit hexit).1 hpost)
  · rcases (postDominates_step hexit).1 hpost with heq | ⟨hsome, hall⟩
    · exact .inl heq
    · exact .inr ⟨hexit, hsome, fun w hw => mem_postDominators.2 ⟨hmem, hall w hw⟩⟩

/-! ## The invariant -/

/-- What holds of the map between any two updates. -/
structure Inv (g : Cfg N) (nodeSet exitSet : Finset N) (pdom : HashMap N (Finset N)) : Prop where
  keys : pdom.keys = nodeSet
  exits : ∀ n ∈ nodeSet, n ∈ exitSet → setAt pdom n = {n}
  deflates : Chaotic.Deflates nodeSet (transfer g nodeSet exitSet) (setAt pdom)
  above : ∀ n ∈ nodeSet, postDominators g nodeSet exitSet n ≤ setAt pdom n

theorem setAt_insert (pdom : HashMap N (Finset N)) (n : N) (set : Finset N) :
    setAt (pdom.insert n set) = Function.update (setAt pdom) n set := by
  funext m
  rw [setAt, HashMap.get?_insert]
  by_cases hm : m = n
  · subst hm
    rw [if_pos rfl, Function.update_self]
    rfl
  · rw [if_neg hm, Function.update_of_ne hm]
    rfl

namespace Inv

variable {pdom : HashMap N (Finset N)} (h : Inv g nodeSet exitSet pdom)

include h

theorem index_eq {n : N} (hn : n ∈ nodeSet) : indexMap pdom n = .ok (setAt pdom n) := by
  rw [← h.keys] at hn
  obtain ⟨set, hset⟩ := HashMap.exists_of_mem_keys hn
  rw [indexMap, setAt, hset]
  rfl

theorem lookupAll_eq {succs : List N} (hsuccs : ∀ n ∈ succs, n ∈ nodeSet) :
    lookupAll pdom succs = .ok (succs.map (setAt pdom)) := by
  induction succs with
  | nil => rfl
  | cons n succs ih =>
      rw [List.forall_mem_cons] at hsuccs
      rw [lookupAll, h.index_eq hsuccs.1, ih hsuccs.2]
      rfl

theorem meetSuccessors_eq {succs : List N} (hsuccs : ∀ n ∈ succs, n ∈ nodeSet) :
    meetSuccessors pdom succs = .ok (intersectSets (succs.map (setAt pdom))) := by
  rw [meetSuccessors]
  by_cases hnil : succs = []
  · rw [if_pos hnil, hnil]
    rfl
  · rw [if_neg hnil, h.lookupAll_eq hsuccs]
    rfl

/-- Replacing the set of a node that is no exit. -/
theorem update {n : N} (hn : n ∈ nodeSet) (hexit : n ∉ exitSet) :
    Inv g nodeSet exitSet
      (pdom.insert n (transfer g nodeSet exitSet (setAt pdom) n)) where
  keys := by
    rw [HashMap.keys_insert, h.keys, Finset.insert_eq_of_mem hn]
  exits := by
    intro m hm hmexit
    have hne : m ≠ n := by
      rintro rfl
      exact hexit hmexit
    rw [setAt_insert, Function.update_of_ne hne]
    exact h.exits m hm hmexit
  deflates := by
    rw [setAt_insert]
    exact h.deflates.update transfer_monoOn hn
  above := by
    rw [setAt_insert]
    exact Chaotic.le_update transfer_monoOn (fun m _ => postDominators_le m) h.above

/-- A solution holds exactly the post-dominators. -/
theorem mem_iff_of_solved
    (hsolved : ∀ n ∈ nodeSet, transfer g nodeSet exitSet (setAt pdom) n = setAt pdom n)
    {n p : N} (hn : n ∈ nodeSet) (hp : p ∈ nodeSet) :
    p ∈ setAt pdom n ↔ PostDominates (Within g nodeSet) (· ∈ exitSet) p n := by
  constructor
  · intro hmem
    refine PostDominates.of_closed (X := fun p n => n ∈ nodeSet ∧ p ∈ setAt pdom n) ?_ ⟨hn, hmem⟩
    rintro p n ⟨hn, hmem⟩
    rw [← hsolved n hn, mem_transfer] at hmem
    refine hmem.imp_right ?_
    rintro ⟨hexit, hsome, hall⟩
    exact ⟨hexit, hsome, fun w hw => ⟨hw.2, hall w hw⟩⟩
  · intro hpost
    exact h.above n hn (mem_postDominators.2 ⟨hp, hpost⟩)

end Inv

/-- How much the sets hold together. -/
def weight (nodeSet : Finset N) (pdom : HashMap N (Finset N)) : Nat :=
  ∑ n ∈ nodeSet, (setAt pdom n).card

/-! ## The sweeps -/

/-- An update either finds the equation of its node satisfied, or satisfies it and shrinks the
set. -/
theorem updateNode_spec {s : PdomState N} (h : Inv g nodeSet exitSet s.pdom) {n : N}
    (hn : n ∈ nodeSet) :
    ∃ s', (updateNode g nodeSet exitSet n).run s = (.ok (), s') ∧
      Inv g nodeSet exitSet s'.pdom ∧
      (s' = s ∧ transfer g nodeSet exitSet (setAt s.pdom) n = setAt s.pdom n ∨
        s'.changed = true ∧ weight nodeSet s'.pdom < weight nodeSet s.pdom) := by
  by_cases hexit : n ∈ exitSet
  · refine ⟨s, by rw [updateNode, if_pos hexit]; rfl, h, .inl ⟨rfl, ?_⟩⟩
    rw [transfer, if_pos hexit, h.exits n hn hexit]
  · have hsuccs : ∀ m ∈ successorsIn g nodeSet n, m ∈ nodeSet :=
      fun m hm => (mem_successorsIn.1 hm).2
    have hmeet := h.meetSuccessors_eq hsuccs
    have htransfer : insert n (intersectSets ((successorsIn g nodeSet n).map (setAt s.pdom))) =
        transfer g nodeSet exitSet (setAt s.pdom) n := by
      rw [transfer, if_neg hexit]
    rw [updateNode, if_neg hexit]
    simp only [Method.run_bind_get, hmeet, Method.run_bind_liftM_ok, h.index_eq hn, htransfer]
    by_cases hsame : transfer g nodeSet exitSet (setAt s.pdom) n = setAt s.pdom n
    · exact ⟨s, by rw [if_neg (not_not.2 hsame)]; rfl, h, .inl ⟨rfl, hsame⟩⟩
    · refine ⟨_, by rw [if_pos hsame]; rfl, h.update hn hexit, .inr ⟨rfl, ?_⟩⟩
      rw [weight, weight, setAt_insert]
      exact h.deflates.sum_update_lt hn Finset.card_strictMono hsame

/-- A sweep either changes nothing, and then the map is a solution, or lowers the weight. -/
theorem sweep_spec {nodes : List N} (hnodes : ∀ n, n ∈ nodes ↔ n ∈ nodeSet) {s : PdomState N}
    (h : Inv g nodeSet exitSet s.pdom) (hchanged : s.changed = false) :
    ∃ s', (Method.forEach (updateNode g nodeSet exitSet) nodes).run s = (.ok (), s') ∧
      Inv g nodeSet exitSet s'.pdom ∧
      (s'.changed = false →
        ∀ n ∈ nodeSet, transfer g nodeSet exitSet (setAt s'.pdom) n = setAt s'.pdom n) ∧
      (s'.changed = true → weight nodeSet s'.pdom < weight nodeSet s.pdom) := by
  obtain ⟨s', hrun, hs', hcase⟩ := Method.forEach_induction (updateNode g nodeSet exitSet)
    -- Either nothing has changed and the sets seen are fixed, or the weight has gone down.
    (fun done s' => Inv g nodeSet exitSet s'.pdom ∧
      (s' = s ∧ (∀ n ∈ done, transfer g nodeSet exitSet (setAt s.pdom) n = setAt s.pdom n) ∨
        s'.changed = true ∧ weight nodeSet s'.pdom < weight nodeSet s.pdom))
    nodes (s := s) ⟨h, .inl ⟨rfl, by simp⟩⟩ (by
      rintro done n rest t hsplit ⟨ht, hcase⟩
      have hn : n ∈ nodeSet := (hnodes n).1 (by rw [hsplit]; simp)
      obtain ⟨t', hrun, ht', hstep⟩ := updateNode_spec ht hn
      refine ⟨t', hrun, ht', ?_⟩
      rcases hstep with ⟨rfl, hsame⟩ | ⟨hflag, hless⟩
      · rcases hcase with ⟨rfl, hdone⟩ | hcase
        · refine .inl ⟨rfl, ?_⟩
          intro m hm
          rcases List.mem_append.1 hm with hm | hm
          · exact hdone m hm
          · obtain rfl := List.mem_singleton.1 hm
            exact hsame
        · exact .inr hcase
      · refine .inr ⟨hflag, ?_⟩
        rcases hcase with ⟨rfl, -⟩ | ⟨-, hless'⟩
        · exact hless
        · exact hless.trans hless')
  refine ⟨s', hrun, hs', ?_, ?_⟩
  · intro hflag
    rcases hcase with ⟨rfl, hdone⟩ | ⟨hflag', -⟩
    · exact fun n hn => hdone n ((hnodes n).2 hn)
    · rw [hflag] at hflag'
      cases hflag'
  · intro hflag
    rcases hcase with ⟨rfl, -⟩ | ⟨-, hless⟩
    · rw [hchanged] at hflag
      cases hflag
    · exact hless

theorem sweeps_spec {nodes : List N} (hnodes : ∀ n, n ∈ nodes ↔ n ∈ nodeSet) (fuel : Nat) :
    ∀ {s : PdomState N}, Inv g nodeSet exitSet s.pdom → weight nodeSet s.pdom < fuel →
      ∃ s', (sweeps g nodes nodeSet exitSet fuel).run s = (.ok (), s') ∧
        Inv g nodeSet exitSet s'.pdom ∧
        ∀ n ∈ nodeSet, transfer g nodeSet exitSet (setAt s'.pdom) n = setAt s'.pdom n := by
  induction fuel with
  | zero =>
      intro s _ hlt
      exact absurd hlt (Nat.not_lt_zero _)
  | succ fuel ih =>
      intro s hs hlt
      obtain ⟨s₁, hrun₁, hs₁, hsolved, hless⟩ :=
        sweep_spec hnodes (s := { s with changed := false }) hs rfl
      rw [sweeps, Method.run_bind_modify, Method.run_bind_of_ok hrun₁, Method.run_bind_get]
      cases hflag : s₁.changed with
      | false => exact ⟨s₁, rfl, hs₁, hsolved hflag⟩
      | true =>
          have hlt₁ : weight nodeSet s₁.pdom < fuel :=
            Nat.lt_of_lt_of_le (hless hflag) (Nat.le_of_lt_succ hlt)
          simp only [if_true]
          exact ih hs₁ hlt₁

/-! ## The result -/

theorem initialSets_get? {all : Finset N} {nodes : List N} {n : N} :
    ∀ pdom : HashMap N (Finset N), (initialSets all exitSet nodes pdom).get? n =
      if n ∈ nodes then some (if n ∈ exitSet then {n} else all) else pdom.get? n := by
  induction nodes with
  | nil =>
      intro pdom
      rfl
  | cons m nodes ih =>
      intro pdom
      rw [initialSets, ih, HashMap.get?_insert]
      by_cases hn : n ∈ nodes
      · simp [hn]
      · by_cases hm : n = m
        · subst hm
          simp
        · simp [hn, hm]

/-- The full sets, with the exits alone in theirs, satisfy the invariant. -/
theorem initialSets_inv {nodes : List N} (hnodes : ∀ n, n ∈ nodes ↔ n ∈ nodeSet) :
    Inv g nodeSet exitSet (initialSets nodes.toFinset exitSet nodes .empty) := by
  have hall : nodes.toFinset = nodeSet := by
    ext n
    rw [List.mem_toFinset, hnodes]
  have hset : ∀ n ∈ nodeSet, setAt (initialSets nodes.toFinset exitSet nodes .empty) n =
      if n ∈ exitSet then {n} else nodeSet := by
    intro n hn
    rw [setAt, initialSets_get?, if_pos ((hnodes n).2 hn), hall]
    rfl
  constructor
  · ext n
    rw [HashMap.mem_keys_iff, initialSets_get?, ← hnodes]
    by_cases hn : n ∈ nodes
    · simp [hn]
    · simp [hn]
  · intro n hn hexit
    rw [hset n hn, if_pos hexit]
  · intro n hn p hp
    rw [hset n hn]
    by_cases hexit : n ∈ exitSet
    · rw [transfer, if_pos hexit] at hp
      rwa [if_pos hexit]
    · rw [if_neg hexit]
      rcases mem_transfer.1 hp with rfl | ⟨-, ⟨w, hw⟩, hmem⟩
      · exact hn
      · have hpw := hmem w hw
        rw [hset w hw.2] at hpw
        split at hpw
        · rw [Finset.mem_singleton.1 hpw]
          exact hw.2
        · exact hpw
  · intro n hn p hp
    obtain ⟨hmem, hpost⟩ := mem_postDominators.1 hp
    rw [hset n hn]
    split
    · rename_i hexit
      exact Finset.mem_singleton.2 ((postDominates_exit hexit).1 hpost)
    · exact hmem

/-- For every list of the nodes and every set of exits the iteration ends, and each set holds the
nodes that every walk to an exit or a dead end passes. -/
theorem computePostdominators_spec (g : Cfg N) (nodes : List N) (nodeSet exitSet : Finset N)
    (hnodes : ∀ n, n ∈ nodes ↔ n ∈ nodeSet) :
    ∃ enough, ∀ fuel, enough ≤ fuel →
      ∃ pdom, computePostdominators fuel g nodes nodeSet exitSet = .ok pdom ∧
        ∀ n ∈ nodes, ∃ set, pdom.get? n = some set ∧
          ∀ p ∈ nodes, p ∈ set ↔
            PostDominates (Within g nodeSet) (· ∈ exitSet) p n := by
  have hinit : Inv g nodeSet exitSet (initialSets nodes.toFinset exitSet nodes .empty) :=
    initialSets_inv hnodes
  refine ⟨weight nodeSet (initialSets nodes.toFinset exitSet nodes .empty) + 1, ?_⟩
  intro fuel hfuel
  obtain ⟨s, hrun, hs, hsolved⟩ := sweeps_spec hnodes fuel
    (s := { pdom := initialSets nodes.toFinset exitSet nodes .empty, changed := true })
    hinit hfuel
  refine ⟨s.pdom, by rw [computePostdominators, hrun], ?_⟩
  intro n hn
  obtain ⟨set, hset⟩ := HashMap.exists_of_mem_keys
    (show n ∈ s.pdom.keys by rw [hs.keys]; exact (hnodes n).1 hn)
  refine ⟨set, hset, ?_⟩
  intro p hp
  rw [← hs.mem_iff_of_solved hsolved ((hnodes n).1 hn) ((hnodes p).1 hp), setAt, hset]
  rfl

/-- Node 0 is left for 1 or back to itself, and 1 for 2. -/
def loopThenExit : Cfg Nat where
  successors n :=
    match n with
    | 0 => [1, 0]
    | 1 => [2]
    | _ => []

/-- A loop before the exit, with a repeated node in the list. -/
theorem computePostdominators_spec_loop :
    ∃ enough, ∀ fuel, enough ≤ fuel →
      ∃ pdom, computePostdominators fuel loopThenExit [2, 0, 1, 0]
          [2, 0, 1, 0].toFinset {2} = .ok pdom ∧
        ∀ n ∈ [2, 0, 1, 0], ∃ set, pdom.get? n = some set ∧
          ∀ p ∈ [2, 0, 1, 0], p ∈ set ↔
            PostDominates (Within loopThenExit [2, 0, 1, 0].toFinset)
              (· ∈ ({2} : Finset Nat)) p n :=
  computePostdominators_spec loopThenExit [2, 0, 1, 0] [2, 0, 1, 0].toFinset {2}
    fun _ => List.mem_toFinset.symm

end PostDominator
end Jstd
