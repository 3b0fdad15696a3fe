import Jstd.Sese.DirectClasses

/-!
# Which labels are returned

`jpp_cycle_classes` returns labels that tell the cycle classes apart, by whichever of its exits it
leaves.  The validation before the last exit also compares every edge with itself, and
`cycle_equivalent` does not hold of an edge on a cycle and itself.  So correct labels are rejected
unless the graph has no cycle.
-/

namespace Jstd
namespace Sese

open Foundation

variable {E : Type} {edges : List (IEdge E)} {n : Nat}

/-! ## The partition -/

/-- The labels of distinct edges are equal exactly when no closed walk contains one of them and not
the other. -/
def Exact (edges : List (IEdge E)) (classes : List Nat) : Prop :=
  ∀ a < edges.length, ∀ b < edges.length, a ≠ b →
    (classes.getD a 0 = classes.getD b 0 ↔
      ∀ p, (edgeGraph edges).IsClosedWalk p → (a ∈ p ↔ b ∈ p))

theorem exact_iff {classes : List Nat} : Exact edges classes ↔
    ∀ a < edges.length, ∀ b < edges.length, a ≠ b →
      (classes.getD a 0 = classes.getD b 0 ↔ (edgeGraph edges).CycleEquivalent a b) := by
  refine forall_congr' fun a => forall_congr' fun ha => forall_congr' fun b =>
    forall_congr' fun hb => forall_congr' fun hab => ?_
  rw [Multigraph.cycleEquivalent_iff ha hb hab]

/-- What the tests of `compute_sese` assert of the labels. -/
theorem exact_iff_cycleEquivalent (hbounds : InBounds edges n) {classes : List Nat} :
    Exact edges classes ↔ ∀ a < edges.length, ∀ b < edges.length, a ≠ b →
      cycleEquivalent edges n a b = .ok (decide (classes.getD a 0 = classes.getD b 0)) := by
  classical
  rw [exact_iff]
  refine forall_congr' fun a => forall_congr' fun ha => forall_congr' fun b =>
    forall_congr' fun hb => forall_congr' fun _ => ?_
  rw [cycleEquivalent_eq hbounds ha hb, Except.ok.injEq, decide_eq_decide]
  exact Iff.comm

/-- The cycle classes are exact, on any edge list. -/
theorem jppCycleClasses_exact (edges : List (IEdge E)) (n root : Nat) (hbounds : InBounds edges n)
    (hroot : root < n) :
    ∃ classes, jppCycleClasses edges n root = .ok classes ∧ classes.length = edges.length ∧
      Exact edges classes := by
  obtain ⟨classes, hrun, hlen, hiff, -⟩ := jppCycleClasses_spec hbounds hroot
  exact ⟨classes, hrun, hlen, exact_iff.2 hiff⟩

/-- A loop with a parallel edge, and an edge from an unreachable part into it. -/
def loopAndTail : List (IEdge Nat) :=
  [⟨0, 1, some 0⟩, ⟨1, 0, some 1⟩, ⟨1, 0, some 2⟩, ⟨2, 1, some 3⟩]

theorem jppCycleClasses_exact_loopAndTail :
    ∃ classes, jppCycleClasses loopAndTail 3 0 = .ok classes ∧
      classes.length = loopAndTail.length ∧ Exact loopAndTail classes :=
  jppCycleClasses_exact loopAndTail 3 0 (by unfold InBounds; decide) (by decide)

/-! ## The validation -/

/-- No edge lies on a closed walk. -/
def Acyclic (edges : List (IEdge E)) : Prop :=
  ∀ p, (edgeGraph edges).IsClosedWalk p → p = []

theorem acyclic_iff : Acyclic edges ↔
    ∀ a < edges.length, (edgeGraph edges).CycleEquivalent a a := by
  constructor
  · intro hacyclic a ha
    refine (Multigraph.cycleEquivalent_self_iff ha).2 fun p hp hmem => ?_
    rw [hacyclic p hp] at hmem
    cases hmem
  · intro hself p hp
    cases p with
    | nil => rfl
    | cons a p =>
        have ha : (edgeGraph edges).IsEdge a := hp.choose_spec.1
        exact absurd List.mem_cons_self
          ((Multigraph.cycleEquivalent_self_iff ha).1 (hself a ha) _ hp)

theorem isValid_iff (hbounds : InBounds edges n) {classes : List Nat}
    (hlen : classes.length = edges.length) :
    isValid edges n classes = .ok true ↔ Exact edges classes ∧ Acyclic edges := by
  classical
  rw [isValid_eq hbounds hlen, Except.ok.injEq, decide_eq_true_eq, exact_iff, acyclic_iff]
  constructor
  · intro hall
    exact ⟨fun a ha b hb _ => hall a ha b hb, fun a ha => (hall a ha a ha).1 rfl⟩
  · rintro ⟨hexact, hself⟩ a ha b hb
    by_cases hab : a = b
    · subst hab
      exact iff_of_true rfl (hself a ha)
    · exact hexact a ha b hb hab

/-- Correct labels of the bracket lists are accepted, and returned, exactly when the graph has no
cycle. -/
theorem validation_accepts_iff {root : Nat} (hbounds : InBounds edges n) (hroot : root < n)
    {classes : List Nat} (hrun : bracketClasses edges n root = .ok (some classes))
    (hexact : Exact edges classes) :
    (isValid edges n classes = .ok true ∧ jppCycleClasses edges n root = .ok classes) ↔
      Acyclic edges := by
  obtain ⟨r, hr, hlen⟩ := bracketClasses_spec hbounds hroot
  rw [hrun, Except.ok.injEq] at hr
  have hvalid := isValid_iff hbounds (hlen classes hr.symm)
  constructor
  · rintro ⟨htrue, -⟩
    exact (hvalid.1 htrue).2
  · intro hacyclic
    have htrue := hvalid.2 ⟨hexact, hacyclic⟩
    refine ⟨htrue, ?_⟩
    rw [jppCycleClasses, hrun]
    show (isValid edges n classes >>= _) = _
    rw [htrue]
    rfl

/-- Two edges from 0 to 1. -/
def parallel : List (IEdge Nat) :=
  [⟨0, 1, some 0⟩, ⟨0, 1, some 1⟩]

theorem parallel_inBounds : InBounds parallel 2 := by
  unfold InBounds
  decide

theorem validation_accepts_iff_parallel :
    (isValid parallel 2 [1, 1] = .ok true ∧ jppCycleClasses parallel 2 0 = .ok [1, 1]) ↔
      Acyclic parallel :=
  validation_accepts_iff parallel_inBounds (by decide) (by decide +kernel)
    ((exact_iff_cycleEquivalent parallel_inBounds).2 (by decide +kernel))

/-- `0 → 1 → 0`. -/
def twoCycle : List (IEdge Nat) :=
  [⟨0, 1, some 0⟩, ⟨1, 0, some 1⟩]

theorem twoCycle_inBounds : InBounds twoCycle 2 := by
  unfold InBounds
  decide

/-- The bracket lists label the two edges of the cycle alike, and the validation rejects that. -/
theorem twoCycle_rejected :
    bracketClasses twoCycle 2 0 = .ok (some [1, 1]) ∧ Exact twoCycle [1, 1] ∧
      isValid twoCycle 2 [1, 1] = .ok false :=
  ⟨by decide +kernel, (exact_iff_cycleEquivalent twoCycle_inBounds).2 (by decide +kernel),
    by decide +kernel⟩

end Sese
end Jstd
