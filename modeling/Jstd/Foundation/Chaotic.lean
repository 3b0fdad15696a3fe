import Mathlib.Algebra.Order.BigOperators.Group.Finset

/-!
# Chaotic — descending iteration of a monotone system

A system has an unknown for every index of a finite set, and a right-hand side for each, monotone
in the unknowns.  Unknowns are replaced by their right-hand sides one at a time, in any order.  From
values that no right-hand side exceeds, every replacement goes down (`Deflates.update_le`) and leaves
such values (`Deflates.update`), and none goes below a family of values that is below its own
right-hand sides (`le_update`).  So the iteration ends, and at the greatest solution.
-/

namespace Jstd
namespace Foundation
namespace Chaotic

variable {I A : Type} [DecidableEq I]

/-- The right-hand sides grow with the unknowns. -/
def MonoOn [LE A] (S : Finset I) (F : (I → A) → I → A) : Prop :=
  ∀ ⦃X Y : I → A⦄, (∀ i ∈ S, X i ≤ Y i) → ∀ i ∈ S, F X i ≤ F Y i

/-- No right-hand side exceeds its unknown. -/
def Deflates [LE A] (S : Finset I) (F : (I → A) → I → A) (X : I → A) : Prop :=
  ∀ i ∈ S, F X i ≤ X i

section

variable [Preorder A] {S : Finset I} {F : (I → A) → I → A} {X Y : I → A} {i : I}

/-- A replacement goes down. -/
theorem Deflates.update_le (h : Deflates S F X) (hi : i ∈ S) :
    ∀ j, Function.update X i (F X i) j ≤ X j := by
  intro j
  by_cases hj : j = i
  · subst hj
    rw [Function.update_self]
    exact h j hi
  · rw [Function.update_of_ne hj]

/-- After it no right-hand side exceeds its unknown either. -/
theorem Deflates.update (hF : MonoOn S F) (h : Deflates S F X) (hi : i ∈ S) :
    Deflates S F (Function.update X i (F X i)) := by
  intro j hj
  have hle := hF (fun k _ => h.update_le hi k) j hj
  by_cases hji : j = i
  · subst hji
    rw [Function.update_self]
    exact hle
  · rw [Function.update_of_ne hji]
    exact hle.trans (h j hj)

/-- It does not go below a family that is below its own right-hand sides. -/
theorem le_update (hF : MonoOn S F) (hY : ∀ j ∈ S, Y j ≤ F Y j) (hYX : ∀ j ∈ S, Y j ≤ X j) :
    ∀ j ∈ S, Y j ≤ Function.update X i (F X i) j := by
  intro j hj
  by_cases hji : j = i
  · subst hji
    rw [Function.update_self]
    exact (hY j hj).trans (hF hYX j hj)
  · rw [Function.update_of_ne hji]
    exact hYX j hj

end

/-- A replacement that changes something lowers the sum of the ranks. -/
theorem Deflates.sum_update_lt [PartialOrder A] {S : Finset I} {F : (I → A) → I → A} {X : I → A}
    {i : I} (h : Deflates S F X) (hi : i ∈ S) {rank : A → Nat} (hrank : StrictMono rank)
    (hne : F X i ≠ X i) :
    ∑ j ∈ S, rank (Function.update X i (F X i) j) < ∑ j ∈ S, rank (X j) := by
  refine Finset.sum_lt_sum (fun j _ => hrank.monotone (h.update_le hi j)) ⟨i, hi, ?_⟩
  rw [Function.update_self]
  exact hrank (lt_of_le_of_ne (h i hi) hne)

end Chaotic
end Foundation
end Jstd
