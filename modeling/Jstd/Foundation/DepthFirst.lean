import Jstd.Foundation.Path

/-!
# DepthFirst — preorder numberings of a directed graph

The vertices are the numbers `1..n` a depth-first search gave them.  `DepthFirst` collects what such
a numbering owes its graph, locally: where the parent of a vertex is, and where edges to larger
numbers go.  From that follow the two facts every use of a depth-first tree rests on: subtrees are
intervals (`Anc.of_between`), and a walk that does not dip below its start stays in the subtree of
its start (`DepthFirst.anc_of_through`).
-/

namespace Jstd
namespace Foundation

/-- `u` is `v` or a tree ancestor of `v`. -/
inductive Anc (parent : Nat → Nat) (u : Nat) : Nat → Prop
  | refl : Anc parent u u
  | step {v : Nat} : 2 ≤ v → Anc parent u (parent v) → Anc parent u v

/-- A preorder numbering of the vertices `1..n` of the graph `E`. -/
structure DepthFirst (E : Nat → Nat → Prop) (parent : Nat → Nat) (n : Nat) : Prop where
  bounds : ∀ {u v : Nat}, E u v → 1 ≤ u ∧ u ≤ n ∧ 1 ≤ v ∧ v ≤ n
  parent_edge : ∀ {w : Nat}, 2 ≤ w → w ≤ n → E (parent w) w
  parent_lt : ∀ {w : Nat}, 2 ≤ w → w ≤ n → parent w < w
  /-- The parent of `w` was still being searched when `w - 1` was numbered. -/
  parent_prev : ∀ {w : Nat}, 2 ≤ w → w ≤ n → Anc parent (parent w) (w - 1)
  /-- An edge to a larger number stays in the subtree. -/
  forward : ∀ {u v : Nat}, E u v → u < v → Anc parent u v

namespace Anc

variable {parent : Nat → Nat} {u v w : Nat}

theorem trans (huv : Anc parent u v) (hvw : Anc parent v w) : Anc parent u w := by
  induction hvw with
  | refl => exact huv
  | step hw _ ih => exact .step hw ih

/-- A proper ancestor is an ancestor of the parent. -/
theorem of_ne (h : Anc parent u v) (hne : u ≠ v) : 2 ≤ v ∧ Anc parent u (parent v) := by
  cases h with
  | refl => exact absurd rfl hne
  | step hv h => exact ⟨hv, h⟩

/-- The child a proper ancestor reaches its descendant through. -/
theorem exists_child (h : Anc parent u v) (hne : u ≠ v) :
    ∃ c, 2 ≤ c ∧ parent c = u ∧ Anc parent c v := by
  induction h with
  | refl => exact absurd rfl hne
  | @step v hv2 _ ih =>
      by_cases hu : u = parent v
      · exact ⟨v, hv2, hu.symm, .refl⟩
      · obtain ⟨c, hc2, hcu, hcv⟩ := ih hu
        exact ⟨c, hc2, hcu, .step hv2 hcv⟩

end Anc

namespace DepthFirst

variable {E : Nat → Nat → Prop} {parent : Nat → Nat} {n : Nat} (D : DepthFirst E parent n)

include D

theorem one_le_parent {w : Nat} (hw : 2 ≤ w) (hwn : w ≤ n) : 1 ≤ parent w :=
  (D.bounds (D.parent_edge hw hwn)).1

theorem anc_le {u v : Nat} (h : Anc parent u v) (hv : v ≤ n) : u ≤ v := by
  induction h with
  | refl => exact Nat.le_refl u
  | step hv2 _ ih =>
      have hlt := D.parent_lt hv2 hv
      have := ih (by omega)
      omega

theorem one_le_of_anc {u v : Nat} (h : Anc parent u v) (hv : 1 ≤ v) (hvn : v ≤ n) : 1 ≤ u := by
  induction h with
  | refl => exact hv
  | step hv2 _ ih =>
      have hlt := D.parent_lt hv2 hvn
      exact ih (D.one_le_parent hv2 hvn) (by omega)

/-- The root is an ancestor of every vertex. -/
theorem root_anc {w : Nat} (hw : 1 ≤ w) (hwn : w ≤ n) : Anc parent 1 w := by
  induction w using Nat.strongRecOn with
  | _ w ih =>
      rcases Nat.lt_or_eq_of_le hw with hlt | rfl
      · have hp := D.parent_lt hlt hwn
        exact .step hlt (ih _ hp (D.one_le_parent hlt hwn) (by omega))
      · exact .refl

/-- The ancestors of a vertex form a chain. -/
theorem anc_of_le {u v w : Nat} (hu : Anc parent u w) (hv : Anc parent v w) (hwn : w ≤ n)
    (hle : u ≤ v) : Anc parent u v := by
  induction hv with
  | refl => exact hu
  | step hw2 hv ih =>
      have hlt := D.parent_lt hw2 hwn
      have hvle := D.anc_le hv (by omega)
      exact ih (hu.of_ne (by omega)).2 (by omega)

/-- Subtrees are intervals. -/
theorem anc_of_between {u x y : Nat} (h : Anc parent u y) (hyn : y ≤ n) (hux : u ≤ x)
    (hxy : x ≤ y) : Anc parent u x := by
  induction y with
  | zero =>
      obtain rfl : x = 0 := by omega
      exact h
  | succ y ih =>
      rcases Nat.lt_or_eq_of_le hxy with hlt | rfl
      · obtain ⟨hy2, hp⟩ := h.of_ne (by omega)
        have hprev := D.parent_prev hy2 hyn
        rw [Nat.add_sub_cancel] at hprev
        exact ih (hp.trans hprev) (by omega) (by omega)
      · exact h

/-- A walk that never dips below its start `m` stays in the subtree of `m`. -/
theorem anc_of_through {m v : Nat} (h : Through E (fun y => m ≤ y) m v) (hle : m ≤ v) :
    Anc parent m v := by
  have edge : ∀ {x y : Nat}, Anc parent m x → E x y → m ≤ y → Anc parent m y := by
    intro x y hx hxy hy
    rcases Nat.lt_or_ge x y with hlt | hge
    · exact hx.trans (D.forward hxy hlt)
    · exact D.anc_of_between hx (D.bounds hxy).2.1 hy hge
  induction h with
  | edge hmv => exact edge .refl hmv hle
  | snoc _ hy hyw ih => exact edge (ih hy) hyw hle

/-- The tree path between an ancestor and its descendant. -/
theorem tree_path {u v : Nat} (h : Anc parent u v) (hv : v ≤ n) :
    Relation.ReflTransGen (fun a b => E a b ∧ (u ≤ b ∧ Anc parent b v)) u v := by
  induction h with
  | refl => exact .refl
  | step hv2 hu ih =>
      have hlt := D.parent_lt hv2 hv
      have hup := D.anc_le hu (by omega)
      refine .tail (Relation.ReflTransGen.mono ?_ _ _ (ih (by omega)))
        ⟨D.parent_edge hv2 hv, by omega, .refl⟩
      rintro a b ⟨hab, hub, hb⟩
      exact ⟨hab, hub, .step hv2 hb⟩

end DepthFirst

end Foundation
end Jstd
