import Mathlib.Data.Nat.Find
import Mathlib.Data.Set.Disjoint
import Mathlib.Data.Set.Lattice
import Mathlib.Order.CompletePartialOrder

/-!
# Laminar — the tree of a list of nested sets

`S 0, .., S (n - 1)` are sets of which each is disjoint from the ones before it or strictly inside
them.  The parent of a set is the last one before it that contains it, and the owner of an element
the last one that has it: every set is what it owns and, without overlap, what its children hold.
-/

namespace Jstd
namespace Foundation

variable {V : Type} {S : Nat → Set V} {n i j k : Nat} {v : V}

/-- Each set is disjoint from the earlier ones, or strictly inside. -/
def Laminar (S : Nat → Set V) (n : Nat) : Prop :=
  ∀ i j, i < j → j < n → Disjoint (S i) (S j) ∨ S j ⊂ S i

/-- `S i` is the last set before `S j` that contains it. -/
structure IsParent (S : Nat → Set V) (i j : Nat) : Prop where
  lt : i < j
  subset : S j ⊆ S i
  last : ∀ k, i < k → k < j → ¬ S j ⊆ S k

/-- `S i` is the last set that has `v`. -/
structure IsOwner (S : Nat → Set V) (n i : Nat) (v : V) : Prop where
  lt : i < n
  mem : v ∈ S i
  last : ∀ k, i < k → k < n → v ∉ S k

namespace Laminar

/-- Sets that share an element are nested. -/
theorem ssubset (h : Laminar S n) (hij : i < j) (hj : j < n) (hvi : v ∈ S i) (hvj : v ∈ S j) :
    S j ⊂ S i := by
  rcases h i j hij hj with hdisj | hsub
  · exact absurd hvj (Set.disjoint_left.1 hdisj hvi)
  · exact hsub

/-- An element of a set is its own or a child's. -/
theorem mem_iff (h : Laminar S n) (hi : i < n) :
    v ∈ S i ↔ IsOwner S n i v ∨ ∃ j < n, IsParent S i j ∧ v ∈ S j := by
  constructor
  · intro hv
    by_cases hlater : ∃ j, i < j ∧ j < n ∧ v ∈ S j
    · classical
      obtain ⟨hij, hj, hvj⟩ := Nat.find_spec hlater
      refine .inr ⟨Nat.find hlater, hj, ⟨hij, (h.ssubset hij hj hv hvj).subset, ?_⟩, hvj⟩
      intro k hik hk hsub
      exact Nat.find_min hlater hk ⟨hik, hk.trans hj, hsub hvj⟩
    · refine .inl ⟨hi, hv, fun k hik hk hvk => hlater ⟨k, hik, hk, hvk⟩⟩
  · rintro (howner | ⟨j, -, hparent, hvj⟩)
    · exact howner.mem
    · exact hparent.subset hvj

/-- A child holds nothing its parent owns. -/
theorem notMem_child (hv : IsOwner S n i v) (hj : j < n) (hparent : IsParent S i j) : v ∉ S j :=
  hv.last j hparent.lt hj

/-- Children of one set are disjoint. -/
theorem disjoint_children (h : Laminar S n) (hj : j < n) (hk : k < n) (hij : IsParent S i j)
    (hik : IsParent S i k) (hne : j ≠ k) : Disjoint (S j) (S k) := by
  have hdisjoint : ∀ {j k}, j < k → k < n → IsParent S i j → IsParent S i k →
      Disjoint (S j) (S k) := by
    intro j k hjk hk hij hik
    rcases h j k hjk hk with hdisj | hsub
    · exact hdisj
    · exact absurd hsub.subset (hik.last j hij.lt hjk)
  rcases Nat.lt_or_gt_of_ne hne with hjk | hkj
  · exact hdisjoint hjk hk hij hik
  · exact (hdisjoint hkj hj hik hij).symm

end Laminar

end Foundation
end Jstd
