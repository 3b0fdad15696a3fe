import Mathlib.Data.Set.Finite.Basic
import Jstd.Dominator.Basic
import Jstd.Foundation.Worklist

/-!
# reachable_from_root lists the reachable nodes

`visited` and `stack` are a `Worklist`.  The loop ends because the pending nodes, plus the edges of
the reachable nodes not yet visited, lose at least one every turn.
-/

namespace Jstd
namespace Dominator

open Foundation

variable {N : Type} [DecidableEq N]

theorem mem_pushUnvisited {visited : Finset N} {x : N} (succs : List N) :
    ∀ stack, x ∈ pushUnvisited visited succs stack ↔
      x ∈ stack ∨ (x ∈ succs ∧ x ∉ visited) := by
  induction succs with
  | nil =>
      intro stack
      simp [pushUnvisited]
  | cons succ succs ih =>
      intro stack
      unfold pushUnvisited
      by_cases h : succ ∈ visited
      · rw [if_pos h, ih, List.mem_cons]
        constructor
        · rintro (hs | ⟨hs, hv⟩)
          · exact .inl hs
          · exact .inr ⟨.inr hs, hv⟩
        · rintro (hs | ⟨rfl | hs, hv⟩)
          · exact .inl hs
          · exact absurd h hv
          · exact .inr ⟨hs, hv⟩
      · rw [if_neg h, ih, List.mem_cons, List.mem_cons]
        constructor
        · rintro ((rfl | hs) | ⟨hs, hv⟩)
          · exact .inr ⟨.inl rfl, h⟩
          · exact .inl hs
          · exact .inr ⟨.inr hs, hv⟩
        · rintro (hs | ⟨rfl | hs, hv⟩)
          · exact .inl (.inr hs)
          · exact .inl (.inl rfl)
          · exact .inr ⟨hs, hv⟩

theorem pushUnvisited_length (visited : Finset N) (succs : List N) :
    ∀ stack, (pushUnvisited visited succs stack).length ≤ stack.length + succs.length := by
  induction succs with
  | nil =>
      intro stack
      exact Nat.le_refl _
  | cons succ succs ih =>
      intro stack
      unfold pushUnvisited
      have h1 := ih stack
      have h2 := ih (succ :: stack)
      simp only [List.length_cons] at h2 ⊢
      split
      · omega
      · omega

/-- The search is under way, and `order` lists what it has visited. -/
structure Visiting (g : Cfg N) (root : N) (stack : List N) (visited : Finset N)
    (order : List N) : Prop where
  worklist : Worklist g.Edge root visited stack
  order_visited : ∀ n, n ∈ order ↔ n ∈ visited
  nodup : order.Nodup

namespace Visiting

variable {g : Cfg N} {root node : N} {stack : List N} {visited : Finset N} {order : List N}

theorem visit (h : Visiting g root (node :: stack) visited order) (hnode : node ∉ visited) :
    Visiting g root (pushUnvisited (insert node visited) (g.successors node) stack)
      (insert node visited) (order ++ [node]) := by
  constructor
  · refine h.worklist.visit ?_ ?_ ?_
    · intro v hv
      exact (mem_pushUnvisited _ _).2 (.inl hv)
    · intro v hv
      rcases (mem_pushUnvisited _ _).1 hv with hv | ⟨hv, -⟩
      · exact .inl hv
      · exact .inr hv
    · intro v hv
      by_cases hvis : v ∈ insert node visited
      · exact .inl hvis
      · exact .inr ((mem_pushUnvisited _ _).2 (.inr ⟨hv, hvis⟩))
  · intro n
    simp [h.order_visited, or_comm]
  · refine List.nodup_append.2 ⟨h.nodup, List.nodup_singleton _, ?_⟩
    intro a ha b hb
    obtain rfl := List.mem_singleton.1 hb
    rintro rfl
    exact hnode ((h.order_visited a).1 ha)

end Visiting

/-- The edges leaving the nodes still to be visited. -/
def pendingEdges (g : Cfg N) (reach visited : Finset N) : Nat :=
  pendingDegree (fun n => (g.successors n).length) reach visited

theorem visitStack_spec {g : Cfg N} {root : N} {reach : Finset N}
    (hreach : ∀ n, n ∈ reach ↔ g.Reachable root n) (fuel : Nat) :
    ∀ stack visited order, Visiting g root stack visited order →
      stack.length + pendingEdges g reach visited < fuel →
      ∃ nodes, visitStack g fuel stack visited order = .ok nodes ∧ nodes.Nodup ∧
        ∀ n, n ∈ nodes ↔ g.Reachable root n := by
  -- A turn takes a node off the stack, and a new one pays for what it pushes.
  induction fuel with
  | zero =>
      intro stack visited order _ hlt
      exact absurd hlt (Nat.not_lt_zero _)
  | succ fuel ih =>
      intro stack visited order h hlt
      cases stack with
      | nil =>
          refine ⟨order, rfl, h.nodup, fun n => ?_⟩
          rw [h.order_visited]
          exact h.worklist.final n
      | cons node stack =>
          rw [List.length_cons] at hlt
          unfold visitStack
          by_cases hnode : node ∈ visited
          · rw [if_pos hnode]
            exact ih _ _ _ ⟨h.worklist.skip hnode, h.order_visited, h.nodup⟩ (by omega)
          · rw [if_neg hnode]
            refine ih _ _ _ (h.visit hnode) ?_
            have hlen := pushUnvisited_length (insert node visited) (g.successors node) stack
            have hsum := pendingDegree_insert (fun n => (g.successors n).length)
              ((hreach node).2 (h.worklist.pending_reached node List.mem_cons_self)) hnode
            unfold pendingEdges at hlt ⊢
            omega

/-- With enough fuel the search ends, and lists every reachable node once. -/
theorem reachableFromRoot_spec (g : Cfg N) (root : N) {reach : Finset N}
    (hreach : ∀ n, n ∈ reach ↔ g.Reachable root n) (fuel : Nat)
    (hfuel : 1 + pendingEdges g reach ∅ < fuel) :
    ∃ nodes, reachableFromRoot fuel g root = .ok nodes ∧ nodes.Nodup ∧
      ∀ n, n ∈ nodes ↔ g.Reachable root n :=
  visitStack_spec hreach fuel [root] ∅ [] ⟨.init g.Edge root, by simp, List.nodup_nil⟩ hfuel

end Dominator
end Jstd
