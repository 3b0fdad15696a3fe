import Mathlib.Data.List.Sort

/-!
# SortByKey — stable sorting by a key

`sortByKey key` is `sort_by_key`.  Where the keys of the elements differ, the result is the one list
of these elements with increasing keys, whatever order they came in.
-/

namespace Jstd
namespace Foundation

variable {α κ : Type} [LinearOrder κ]

/-- Stable sorting by a key. -/
def sortByKey (key : α → κ) (xs : List α) : List α :=
  xs.insertionSort fun x y => key x ≤ key y

variable {key : α → κ} {xs : List α}

theorem perm_sortByKey (key : α → κ) (xs : List α) : (sortByKey key xs).Perm xs :=
  List.perm_insertionSort _ xs

@[simp] theorem mem_sortByKey {x : α} : x ∈ sortByKey key xs ↔ x ∈ xs :=
  (perm_sortByKey key xs).mem_iff

@[simp] theorem length_sortByKey : (sortByKey key xs).length = xs.length :=
  (perm_sortByKey key xs).length_eq

theorem pairwise_le_sortByKey (key : α → κ) (xs : List α) :
    (sortByKey key xs).Pairwise fun x y => key x ≤ key y := by
  have : Std.Total (fun x y : α => key x ≤ key y) := ⟨fun x y => le_total (key x) (key y)⟩
  have : IsTrans α (fun x y => key x ≤ key y) := ⟨fun _ _ _ => le_trans⟩
  exact List.pairwise_insertionSort _ xs

/-- Different keys come out strictly increasing. -/
theorem pairwise_lt_sortByKey (h : (xs.map key).Nodup) :
    (sortByKey key xs).Pairwise fun x y => key x < key y := by
  have hne : (sortByKey key xs).Pairwise fun x y => key x ≠ key y := by
    rw [← List.pairwise_map (R := fun k k' => k ≠ k')]
    exact ((perm_sortByKey key xs).map key).nodup_iff.2 h
  exact ((pairwise_le_sortByKey key xs).and hne).imp fun h => lt_of_le_of_ne h.1 h.2

/-- Elements that differ in their keys sort the same from any order. -/
theorem sortByKey_eq_of_perm {ys : List α} (h : xs.Perm ys)
    (hinj : ∀ x ∈ xs, ∀ y ∈ xs, key x = key y → x = y) : sortByKey key xs = sortByKey key ys := by
  refine List.Perm.eq_of_pairwise ?_ (pairwise_le_sortByKey key xs) (pairwise_le_sortByKey key ys)
    ((perm_sortByKey key xs).trans (h.trans (perm_sortByKey key ys).symm))
  intro x y hx hy hxy hyx
  exact hinj x (mem_sortByKey.1 hx) y (h.mem_iff.2 (mem_sortByKey.1 hy)) (le_antisymm hxy hyx)

end Foundation
end Jstd
