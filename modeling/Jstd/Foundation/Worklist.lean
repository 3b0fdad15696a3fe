import Mathlib.Algebra.BigOperators.Group.Finset.Piecewise
import Mathlib.Algebra.Order.BigOperators.Group.Finset
import Mathlib.Data.Finset.SDiff
import Jstd.Foundation.Path

/-!
# Worklist — the invariant of a graph search

A search keeps a set of visited vertices and a list of pending ones.  What a visited vertex leads to
is visited or pending, so when nothing is pending exactly the reachable vertices are visited.  The
order of the pending list, and whether a vertex may be pending twice, does not matter.

`pendingDegree` bounds the search: visiting a vertex trades its degree for what it adds to the list.
-/

namespace Jstd
namespace Foundation

variable {V : Type}

/-- The state of a search from `start` along `E`. -/
structure Worklist (E : V → V → Prop) (start : V) (visited : Finset V) (pending : List V) :
    Prop where
  visited_reached : ∀ v ∈ visited, Reaches E start v
  pending_reached : ∀ v ∈ pending, Reaches E start v
  started : start ∈ visited ∨ start ∈ pending
  closed : ∀ u ∈ visited, ∀ v, E u v → v ∈ visited ∨ v ∈ pending

namespace Worklist

variable {E : V → V → Prop} {start node : V} {visited : Finset V} {pending pending' : List V}

theorem init (E : V → V → Prop) (start : V) : Worklist E start ∅ [start] where
  visited_reached := by simp
  pending_reached := by
    intro v hv
    obtain rfl := List.mem_singleton.1 hv
    exact .refl
  started := .inr (List.mem_singleton_self start)
  closed := by simp

/-- A pending vertex that has been visited is dropped. -/
theorem skip (h : Worklist E start visited (node :: pending)) (hnode : node ∈ visited) :
    Worklist E start visited pending where
  visited_reached := h.visited_reached
  pending_reached v hv := h.pending_reached v (List.mem_cons_of_mem _ hv)
  started := by
    rcases h.started with hv | hs
    · exact .inl hv
    · rcases List.mem_cons.1 hs with rfl | hs
      · exact .inl hnode
      · exact .inr hs
  closed u hu v huv := by
    rcases h.closed u hu v huv with hv | hs
    · exact .inl hv
    · rcases List.mem_cons.1 hs with rfl | hs
      · exact .inl hnode
      · exact .inr hs

/-- Visiting a pending vertex: what it leads to becomes pending, unless visited already. -/
theorem visit [DecidableEq V] (h : Worklist E start visited (node :: pending))
    (hkeep : ∀ v ∈ pending, v ∈ pending') (hnew : ∀ v ∈ pending', v ∈ pending ∨ E node v)
    (hadd : ∀ v, E node v → v ∈ insert node visited ∨ v ∈ pending') :
    Worklist E start (insert node visited) pending' := by
  have hreach := h.pending_reached node List.mem_cons_self
  constructor
  · intro v hv
    rcases Finset.mem_insert.1 hv with rfl | hv
    · exact hreach
    · exact h.visited_reached v hv
  · intro v hv
    rcases hnew v hv with hv | hv
    · exact h.pending_reached v (List.mem_cons_of_mem _ hv)
    · exact hreach.tail hv
  -- The start was visited, or it was pending and may be the node just visited.
  · rcases h.started with hv | hs
    · exact .inl (Finset.mem_insert_of_mem hv)
    · rcases List.mem_cons.1 hs with rfl | hs
      · exact .inl (Finset.mem_insert_self _ _)
      · exact .inr (hkeep _ hs)
  -- What the new node leads to is new on the list or visited; for the others nothing changes.
  · intro u hu v huv
    rcases Finset.mem_insert.1 hu with rfl | hu
    · exact hadd v huv
    · rcases h.closed u hu v huv with hv | hs
      · exact .inl (Finset.mem_insert_of_mem hv)
      · rcases List.mem_cons.1 hs with rfl | hs
        · exact .inl (Finset.mem_insert_self _ _)
        · exact .inr (hkeep _ hs)

/-- With nothing pending, exactly the reachable vertices are visited. -/
theorem final (h : Worklist E start visited []) (v : V) : v ∈ visited ↔ Reaches E start v := by
  constructor
  · exact h.visited_reached v
  · intro hv
    induction hv with
    | refl =>
        rcases h.started with hv | hs
        · exact hv
        · cases hs
    | tail _ hstep ih =>
        rcases h.closed _ ih _ hstep with hv | hs
        · exact hv
        · cases hs

end Worklist

/-! ## Why a search ends -/

section

variable [DecidableEq V] {degree : V → Nat} {reach visited : Finset V}

/-- The degrees of the vertices still to be visited. -/
def pendingDegree (degree : V → Nat) (reach visited : Finset V) : Nat :=
  (reach \ visited).sum degree

theorem pendingDegree_insert (degree : V → Nat) {v : V} (hv : v ∈ reach) (hnew : v ∉ visited) :
    pendingDegree degree reach visited =
      degree v + pendingDegree degree reach (insert v visited) := by
  have hmem : v ∈ reach \ visited := Finset.mem_sdiff.2 ⟨hv, hnew⟩
  have herase : reach \ insert v visited = (reach \ visited).erase v := by
    ext x
    simp only [Finset.mem_sdiff, Finset.mem_insert, Finset.mem_erase, not_or]
    tauto
  unfold pendingDegree
  rw [herase, Finset.add_sum_erase _ degree hmem]

/-- The edges of a list, counted at their sources, are no more than the list has. -/
theorem sum_countP_le {I : Type} (src : I → V) (edges : List I) (s : Finset V) :
    (s.sum fun v => edges.countP fun e => src e = v) ≤ edges.length := by
  induction edges with
  | nil => simp
  | cons e edges ih =>
      have hone : (s.sum fun v => if src e = v then 1 else 0) ≤ 1 := by
        rw [Finset.sum_ite_eq]
        split
        · exact Nat.le_refl 1
        · exact Nat.zero_le 1
      simp only [List.countP_cons, decide_eq_true_eq, Finset.sum_add_distrib, List.length_cons]
      omega

end

end Foundation
end Jstd
