import Mathlib.Data.Finset.Option
import Jstd.Dominator.Tree
import Jstd.Foundation.Reversal
import Jstd.PostDominator.Correctness

/-!
# Post-dominators as dominators

The map that the sweeps end with is fixed by the graph between the nodes and by the exits among
them (`Exact.unique`): the order of the nodes, repetitions in it and the order of successors do not
show.

Turned around, with one node added that leads to the exits and the dead ends, the graph has these
sets as its dominator sets.  The sweeps and the Lengauer–Tarjan algorithm, which have nothing in
common, are two ways to compute them.
-/

namespace Jstd
namespace PostDominator

open Foundation Dominator

variable {N : Type} [DecidableEq N] {g g' : Cfg N} {nodeSet exitSet exitSet' : Finset N}

/-! ## The whole map -/

/-- No set has a member from outside, but perhaps the node it belongs to. -/
def Bounded (nodeSet : Finset N) (pdom : HashMap N (Finset N)) : Prop :=
  ∀ n set, pdom.get? n = some set → set ⊆ insert n nodeSet

theorem Bounded.lookupAll_subset {pdom : HashMap N (Finset N)} (h : Bounded nodeSet pdom)
    {succs : List N} (hsuccs : ∀ m ∈ succs, m ∈ nodeSet) :
    ∀ sets, lookupAll pdom succs = .ok sets → ∀ set ∈ sets, set ⊆ nodeSet := by
  induction succs with
  | nil =>
      rintro _ ⟨⟩
      simp
  | cons m succs ih =>
      intro sets hsets
      rw [List.forall_mem_cons] at hsuccs
      rw [lookupAll, indexMap] at hsets
      -- Both lookups went through, or there would be no sets.
      cases hget : pdom.get? m with
      | none =>
          rw [hget] at hsets
          cases hsets
      | some set =>
          rw [hget] at hsets
          cases hrest : lookupAll pdom succs with
          | error e =>
              rw [hrest] at hsets
              cases hsets
          | ok rest =>
              rw [hrest] at hsets
              cases hsets
              refine List.forall_mem_cons.2 ⟨?_, ih hsuccs.2 rest hrest⟩
              rw [← Finset.insert_eq_of_mem hsuccs.1]
              exact h m set hget

theorem Bounded.meet_subset {pdom : HashMap N (Finset N)} (h : Bounded nodeSet pdom)
    {succs : List N} (hsuccs : ∀ m ∈ succs, m ∈ nodeSet) {meet : Finset N}
    (hmeet : meetSuccessors pdom succs = .ok meet) : meet ⊆ nodeSet := by
  rw [meetSuccessors] at hmeet
  split at hmeet
  · cases hmeet
    exact Finset.empty_subset nodeSet
  · cases hsets : lookupAll pdom succs with
    | error e =>
        rw [hsets] at hmeet
        cases hmeet
    | ok sets =>
        rw [hsets] at hmeet
        cases hmeet
        intro p hp
        obtain ⟨hne, hall⟩ := mem_intersectSets.1 hp
        obtain ⟨set, hset⟩ := List.exists_mem_of_ne_nil sets hne
        exact h.lookupAll_subset hsuccs sets hsets set hset (hall set hset)

theorem updateNode_bounded (n : N) :
    Method.Keeps (fun s => Bounded nodeSet s.pdom) (updateNode g nodeSet exitSet n) := by
  intro s hs
  rw [updateNode]
  split
  · exact hs
  · have hsuccs : ∀ m ∈ successorsIn g nodeSet n, m ∈ nodeSet :=
      fun m hm => (mem_successorsIn.1 hm).2
    rw [Method.run_bind_get]
    cases hmeet : meetSuccessors s.pdom (successorsIn g nodeSet n) with
    | error e => exact hs
    | ok meet =>
        simp only [Method.run_bind_liftM_ok]
        cases hold : indexMap s.pdom n with
        | error e => exact hs
        | ok old =>
            simp only [Method.run_bind_liftM_ok]
            split
            · intro m set hget
              change (s.pdom.insert n (insert n meet)).get? m = some set at hget
              rw [HashMap.get?_insert] at hget
              split at hget
              · rename_i hm
                cases hget
                rw [hm]
                exact Finset.insert_subset_insert n (hs.meet_subset hsuccs hmeet)
              · exact hs m set hget
            · exact hs

theorem sweeps_bounded (exitSet : Finset N) (nodes : List N) (fuel : Nat) :
    Method.Keeps (fun s => Bounded nodeSet s.pdom) (sweeps g nodes nodeSet exitSet fuel) := by
  induction fuel with
  | zero => exact fun s hs => hs
  | succ fuel ih =>
      refine .bind (.modify fun _ h => h) fun _ =>
        .bind (.forEach updateNode_bounded nodes) fun _ => .bind .get fun self => ?_
      split
      · exact ih
      · exact .pure ()

/-- The map, whole: an entry for every node, with the post-dominators among the nodes in it. -/
structure Exact (g : Cfg N) (nodeSet exitSet : Finset N) (pdom : HashMap N (Finset N)) :
    Prop where
  keys : pdom.keys = nodeSet
  mem_iff : ∀ n set, pdom.get? n = some set → ∀ p, p ∈ set ↔
    p ∈ nodeSet ∧ PostDominates (Within g nodeSet) (· ∈ exitSet) p n

theorem computePostdominators_exact (g : Cfg N) (nodes : List N) (nodeSet exitSet : Finset N)
    (hnodes : ∀ n, n ∈ nodes ↔ n ∈ nodeSet) :
    ∃ enough, ∀ fuel, enough ≤ fuel →
      ∃ pdom, computePostdominators fuel g nodes nodeSet exitSet = .ok pdom ∧
        Exact g nodeSet exitSet pdom := by
  have hinit : Inv g nodeSet exitSet (initialSets nodes.toFinset exitSet nodes .empty) :=
    initialSets_inv hnodes
  have hbounded : Bounded nodeSet (initialSets nodes.toFinset exitSet nodes .empty) := by
    intro n set hget
    rw [initialSets_get?] at hget
    split at hget
    · cases hget
      intro p hp
      split at hp
      · rw [Finset.mem_singleton.1 hp]
        exact Finset.mem_insert_self n nodeSet
      · exact Finset.mem_insert_of_mem ((hnodes p).1 (List.mem_toFinset.1 hp))
    · rw [HashMap.get?_empty] at hget
      cases hget
  refine ⟨weight nodeSet (initialSets nodes.toFinset exitSet nodes .empty) + 1, ?_⟩
  intro fuel hfuel
  obtain ⟨s, hrun, hs, hsolved⟩ := sweeps_spec hnodes fuel
    (s := { pdom := initialSets nodes.toFinset exitSet nodes .empty, changed := true })
    hinit hfuel
  refine ⟨s.pdom, by rw [computePostdominators, hrun], hs.keys, ?_⟩
  have hkept := sweeps_bounded (g := g) exitSet nodes fuel
    { pdom := initialSets nodes.toFinset exitSet nodes .empty, changed := true } hbounded
  rw [hrun] at hkept
  intro n set hget p
  have hn : n ∈ nodeSet := by
    rw [← hs.keys]
    exact HashMap.mem_keys_of_get? hget
  have hset : setAt s.pdom n = set := by rw [setAt, hget]; rfl
  rw [← hset]
  constructor
  · intro hp
    have hmem : p ∈ nodeSet := by
      have hp' := hkept n set hget (hset ▸ hp)
      rwa [Finset.insert_eq_of_mem hn] at hp'
    exact ⟨hmem, (hs.mem_iff_of_solved hsolved hn hmem).1 hp⟩
  · rintro ⟨hmem, hpost⟩
    exact (hs.mem_iff_of_solved hsolved hn hmem).2 hpost

/-! ## What the map depends on -/

omit [DecidableEq N] in
theorem mem_of_reaches {n m : N} (hn : n ∈ nodeSet) (h : Reaches (Within g nodeSet) n m) :
    m ∈ nodeSet := by
  cases h with
  | refl => exact hn
  | tail _ hstep => exact hstep.2

theorem Exact.unique {pdom pdom' : HashMap N (Finset N)} (h : Exact g nodeSet exitSet pdom)
    (h' : Exact g' nodeSet exitSet' pdom')
    (hagree : ∀ u ∈ nodeSet, ∀ v ∈ nodeSet, g.Edge u v ↔ g'.Edge u v)
    (hexit : ∀ n ∈ nodeSet, n ∈ exitSet ↔ n ∈ exitSet') : pdom = pdom' := by
  refine HashMap.ext fun n => ?_
  by_cases hn : n ∈ nodeSet
  · obtain ⟨set, hset⟩ := HashMap.exists_of_mem_keys (h.keys ▸ hn)
    obtain ⟨set', hset'⟩ := HashMap.exists_of_mem_keys (h'.keys ▸ hn)
    have hedges : AgreeFrom (Within g nodeSet) (Within g' nodeSet) n := by
      intro u hu v
      exact and_congr_left fun hv => hagree u (mem_of_reaches hn hu) v hv
    rw [hset, hset']
    refine congrArg some (Finset.ext fun p => ?_)
    rw [h.mem_iff n set hset, h'.mem_iff n set' hset',
      hedges.postDominates_iff fun e he => hexit e (mem_of_reaches hn he)]
  · have hnone : ∀ {m : HashMap N (Finset N)}, m.keys = nodeSet → m.get? n = none := by
      intro m hkeys
      rw [Option.eq_none_iff_forall_not_mem]
      intro set hset
      exact hn (hkeys ▸ HashMap.mem_keys_of_get? hset)
    rw [hnone h.keys, hnone h'.keys]

/-- The map of the source has the post-dominators of every node, and is the same for every listing of
the nodes, every order of successors and every two graphs with the same edges and exits among the
nodes. -/
theorem computePostdominators_agree (g g' : Cfg N) (nodes nodes' : List N)
    (nodeSet exitSet exitSet' : Finset N) (hnodes : ∀ n, n ∈ nodes ↔ n ∈ nodeSet)
    (hnodes' : ∀ n, n ∈ nodes' ↔ n ∈ nodeSet)
    (hagree : ∀ u ∈ nodeSet, ∀ v ∈ nodeSet, g.Edge u v ↔ g'.Edge u v)
    (hexit : ∀ n ∈ nodeSet, n ∈ exitSet ↔ n ∈ exitSet') :
    ∃ enough, ∀ fuel, enough ≤ fuel → ∃ pdom,
      computePostdominators fuel g nodes nodeSet exitSet = .ok pdom ∧
      computePostdominators fuel g' nodes' nodeSet exitSet' = .ok pdom ∧
      Exact g nodeSet exitSet pdom := by
  obtain ⟨enough, h⟩ := computePostdominators_exact g nodes nodeSet exitSet hnodes
  obtain ⟨enough', h'⟩ := computePostdominators_exact g' nodes' nodeSet exitSet' hnodes'
  refine ⟨enough + enough', ?_⟩
  intro fuel hfuel
  obtain ⟨pdom, hrun, hexact⟩ := h fuel (by omega)
  obtain ⟨pdom', hrun', hexact'⟩ := h' fuel (by omega)
  obtain rfl := hexact.unique hexact' hagree hexit
  exact ⟨pdom, hrun, hrun', hexact⟩

/-- The loop with its successors the other way around, an edge more to the outside, and an exit that
is not one of the nodes. -/
def loopReordered : Cfg Nat where
  successors n :=
    match n with
    | 0 => [0, 1, 7]
    | 1 => [2, 2]
    | _ => []

theorem computePostdominators_agree_loop :
    ∃ enough, ∀ fuel, enough ≤ fuel → ∃ pdom,
      computePostdominators fuel loopThenExit [2, 0, 1, 0] {0, 1, 2} {2} = .ok pdom ∧
      computePostdominators fuel loopReordered [0, 1, 2] {0, 1, 2} {2, 9} = .ok pdom ∧
      Exact loopThenExit {0, 1, 2} {2} pdom := by
  refine computePostdominators_agree loopThenExit loopReordered [2, 0, 1, 0] [0, 1, 2]
    {0, 1, 2} {2} {2, 9} ?_ ?_ ?_ ?_
  · intro n
    simp
    tauto
  · intro n
    simp
  · simp [Cfg.Edge, loopThenExit, loopReordered]
  · simp

/-! ## The reversed graph -/

/-- The nodes with the edges between them turned around; `none` leads to where walks may stop. -/
def reversed (g : Cfg N) (nodes : List N) (nodeSet exitSet : Finset N) : Cfg (Option N) where
  successors
    | none =>
        (nodes.filter fun n => n ∈ exitSet ∨ successorsIn g nodeSet n = []).map some
    | some v => (nodes.filter fun u => v ∈ successorsIn g nodeSet u).map some

theorem reversed_edge_iff {nodes : List N} (hnodes : ∀ n, n ∈ nodes ↔ n ∈ nodeSet)
    (a b : Option N) :
    (reversed g nodes nodeSet exitSet).Edge a b ↔
      Reversed (fun u v => u ∈ nodeSet ∧ Within g nodeSet u v)
        (fun e => e ∈ nodeSet ∧ Stops (Within g nodeSet) (· ∈ exitSet) e) a b := by
  cases a with
  | none =>
      cases b with
      | none => simp [Cfg.Edge, reversed, Reversed]
      | some e =>
          have hdead : successorsIn g nodeSet e = [] ↔ ∀ w, ¬ Within g nodeSet e w := by
            rw [List.eq_nil_iff_forall_not_mem]
            simp only [mem_successorsIn]
          simp [Cfg.Edge, reversed, Reversed, Stops, hnodes, hdead]
  | some v =>
      cases b with
      | none => simp [Cfg.Edge, reversed, Reversed]
      | some u => simp [Cfg.Edge, reversed, Reversed, hnodes, mem_successorsIn]

theorem reversed_edge_eq {nodes : List N} (hnodes : ∀ n, n ∈ nodes ↔ n ∈ nodeSet) :
    (reversed g nodes nodeSet exitSet).Edge =
      Reversed (fun u v => u ∈ nodeSet ∧ Within g nodeSet u v)
        (fun e => e ∈ nodeSet ∧ Stops (Within g nodeSet) (· ∈ exitSet) e) :=
  funext fun a => funext fun b => propext (reversed_edge_iff hnodes a b)

omit [DecidableEq N] in
/-- Walks from a node do not leave the nodes. -/
theorem isPath_within_iff {n e : N} {l : List N} (hn : n ∈ nodeSet) :
    IsPath (fun u v => u ∈ nodeSet ∧ Within g nodeSet u v) n e l ↔
      IsPath (Within g nodeSet) n e l := by
  constructor
  · intro hl
    clear hn
    induction hl with
    | single u => exact .single u
    | cons huv _ ih => exact .cons huv.2 ih
  · intro hl
    induction hl with
    | single u => exact .single u
    | cons huv _ ih => exact .cons ⟨hn, huv⟩ (ih huv.2)

theorem postDominates_iff_dominates {nodes : List N} (hnodes : ∀ n, n ∈ nodes ↔ n ∈ nodeSet)
    {n p : N} (hn : n ∈ nodeSet) :
    PostDominates (Within g nodeSet) (· ∈ exitSet) p n ↔
      Dominates (reversed g nodes nodeSet exitSet).Edge none (some p) (some n) := by
  rw [reversed_edge_eq hnodes, dominates_reversed_iff]
  constructor
  · intro hpost e l he hl
    exact hpost e l he.2 ((isPath_within_iff hn).1 hl)
  · intro hall e l he hl
    exact hall e l ⟨mem_of_reaches hn hl.reaches, he⟩ ((isPath_within_iff hn).2 hl)

theorem finite_reachable_reversed (exitSet : Finset N) {nodes : List N}
    (hnodes : ∀ n, n ∈ nodes ↔ n ∈ nodeSet) :
    {x | (reversed g nodes nodeSet exitSet).Reachable none x}.Finite := by
  refine (Finset.finite_toSet (Finset.insertNone nodeSet)).subset ?_
  intro x hx
  rw [Finset.mem_coe, Finset.mem_insertNone]
  rintro n rfl
  cases hx with
  | @tail a _ _ hstep =>
      have hn := (reversed_edge_iff hnodes a (some n)).1 hstep
      cases a with
      | none => exact hn.1
      | some v => exact hn.1

/-- Every node, and nothing else, has a set.  The set of a node from which some walk can stop is the
dominator set of the node in the reversed graph, as `compute_dominators` finds it; the set of any
other node holds all nodes. -/
theorem computePostdominators_dual (g : Cfg N) (nodes : List N) (nodeSet exitSet : Finset N)
    (hnodes : ∀ n, n ∈ nodes ↔ n ∈ nodeSet) :
    ∃ enough, ∀ fuel, enough ≤ fuel → ∃ pdom tree,
      computePostdominators fuel g nodes nodeSet exitSet = .ok pdom ∧
      computeDominators fuel (reversed g nodes nodeSet exitSet) none = .ok tree ∧
      pdom.keys = nodeSet ∧
      ∀ n ∈ nodeSet, ∃ set, pdom.get? n = some set ∧ ∀ order : HashOrder (Option N),
        ((∃ e, Stops (Within g nodeSet) (· ∈ exitSet) e ∧ Reaches (Within g nodeSet) n e) →
          tree.dominatorSet fuel order (some n) = .ok (some (Finset.insertNone set))) ∧
        ((¬ ∃ e, Stops (Within g nodeSet) (· ∈ exitSet) e ∧ Reaches (Within g nodeSet) n e) →
          tree.dominatorSet fuel order (some n) = .ok none ∧ set = nodeSet) := by
  have hfinite := finite_reachable_reversed (g := g) exitSet hnodes
  obtain ⟨enough, h⟩ := computePostdominators_exact g nodes nodeSet exitSet hnodes
  obtain ⟨enough', h'⟩ := computeDominators_spec (reversed g nodes nodeSet exitSet) none hfinite
  refine ⟨enough + enough' +
    {x | (reversed g nodes nodeSet exitSet).Reachable none x}.ncard + 1, ?_⟩
  intro fuel hfuel
  obtain ⟨pdom, hrun, hexact⟩ := h fuel (by omega)
  obtain ⟨tree, hrun', htree⟩ := h' fuel (by omega)
  refine ⟨pdom, tree, hrun, hrun', hexact.keys, ?_⟩
  intro n hn
  obtain ⟨set, hset⟩ := HashMap.exists_of_mem_keys (hexact.keys ▸ hn)
  refine ⟨set, hset, fun order => ?_⟩
  have hmem := hexact.mem_iff n set hset
  -- A node is reached in the reversed graph when a walk from it can stop.
  have hreach : (reversed g nodes nodeSet exitSet).Reachable none (some n) ↔
      ∃ e, Stops (Within g nodeSet) (· ∈ exitSet) e ∧ Reaches (Within g nodeSet) n e := by
    rw [Cfg.Reachable, reversed_edge_eq hnodes, reaches_reversed_iff]
    constructor
    · rintro ⟨e, he, hwalk⟩
      exact ⟨e, he.2, Relation.ReflTransGen.mono (fun _ _ h => h.2) _ _ hwalk⟩
    · rintro ⟨e, he, hwalk⟩
      obtain ⟨l, hl⟩ := exists_path_of_reaches hwalk
      exact ⟨e, ⟨mem_of_reaches hn hwalk, he⟩, ((isPath_within_iff hn).2 hl).reaches⟩
  obtain ⟨answer, hanswer, hsome, hnone⟩ :=
    htree.dominatorSet_eq hfinite (by omega : _ < fuel) order (some n)
  rw [hanswer, ← hreach]
  constructor
  · intro hreached
    cases answer with
    | none => exact absurd hreached (hnone rfl)
    | some found =>
        refine congrArg (fun s => Except.ok (some s)) (Finset.ext fun x => ?_)
        rw [(hsome found rfl).2]
        cases x with
        | none => exact ⟨fun _ => Finset.none_mem_insertNone, fun _ => .root none (some n)⟩
        | some p =>
            rw [Finset.some_mem_insertNone, hmem, ← postDominates_iff_dominates hnodes hn,
              iff_and_self]
            -- Some walk stops, and what lies on it is a node.
            intro hpost
            obtain ⟨e, he, hwalk⟩ := hreach.1 hreached
            obtain ⟨l, hl⟩ := exists_path_of_reaches hwalk
            obtain ⟨l', hl', -⟩ := hl.exists_prefix (hpost e l he hl)
            exact mem_of_reaches hn hl'.reaches
  · intro hunreached
    constructor
    · cases answer with
      | none => rfl
      | some found => exact absurd (hsome found rfl).1 hunreached
    · ext p
      rw [hmem, and_iff_left_iff_imp]
      intro _ e l he hl
      exact absurd (hreach.2 ⟨e, he, hl.reaches⟩) hunreached

/-- The loop with a node beside it from which no walk stops. -/
def loopAndTrap : Cfg Nat where
  successors n :=
    match n with
    | 0 => [0, 1, 3]
    | 1 => [2]
    | 3 => [3]
    | _ => []

theorem computePostdominators_dual_trap :
    ∃ enough, ∀ fuel, enough ≤ fuel → ∃ pdom tree,
      computePostdominators fuel loopAndTrap [2, 0, 3, 1, 0] {0, 1, 2, 3} {2} = .ok pdom ∧
      computeDominators fuel (reversed loopAndTrap [2, 0, 3, 1, 0] {0, 1, 2, 3} {2}) none =
        .ok tree ∧
      pdom.keys = {0, 1, 2, 3} ∧
      ∀ n ∈ ({0, 1, 2, 3} : Finset Nat), ∃ set, pdom.get? n = some set ∧
        ∀ order : HashOrder (Option Nat),
          ((∃ e, Stops (Within loopAndTrap {0, 1, 2, 3}) (· ∈ ({2} : Finset Nat)) e ∧
              Reaches (Within loopAndTrap {0, 1, 2, 3}) n e) →
            tree.dominatorSet fuel order (some n) = .ok (some (Finset.insertNone set))) ∧
          ((¬ ∃ e, Stops (Within loopAndTrap {0, 1, 2, 3}) (· ∈ ({2} : Finset Nat)) e ∧
              Reaches (Within loopAndTrap {0, 1, 2, 3}) n e) →
            tree.dominatorSet fuel order (some n) = .ok none ∧ set = {0, 1, 2, 3}) := by
  refine computePostdominators_dual loopAndTrap [2, 0, 3, 1, 0] {0, 1, 2, 3} {2} ?_
  intro n
  simp
  tauto

end PostDominator
end Jstd
