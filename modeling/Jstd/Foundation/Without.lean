import Jstd.Foundation.Reroot

/-!
# One vertex less

What it does to walks and dominance when a vertex is taken out with its edges, for any relation.
Lost are exactly the vertices it dominated; the others keep their dominators and may get more.
Where the vertex did not lead to, nothing changes.
-/

namespace Jstd
namespace Foundation

variable {V : Type} {E : V → V → Prop} {r x d v : V}

/-- `E` without the edges at `x`. -/
def Without (E : V → V → Prop) (x u v : V) : Prop :=
  E u v ∧ u ≠ x ∧ v ≠ x

namespace Without

theorem reaches_of (h : Reaches (Without E x) r v) : Reaches E r v :=
  Relation.ReflTransGen.mono (fun _ _ h => h.1) _ _ h

/-- What is still reached is what `x` did not dominate. -/
theorem reaches_iff (hr : r ≠ x) : Reaches (Without E x) r v ↔ ¬ Dominates E r x v := by
  rw [dominates_iff, not_not, and_iff_right hr]
  constructor
  · exact Relation.ReflTransGen.mono (fun _ _ h => ⟨h.1, h.2.2⟩) _ _
  · intro hwalk
    have main : v ≠ x ∧ Reaches (Without E x) r v := by
      induction hwalk with
      | refl => exact ⟨hr, .refl⟩
      | tail _ hstep ih => exact ⟨hstep.2, .tail ih.2 ⟨hstep.1, ih.1, hstep.2⟩⟩
    exact main.2

/-- A walk that does not come to `x` is still there. -/
theorem isPath {u : V} {l : List V} (hl : IsPath E u v l) (hx : x ∉ l) :
    IsPath (Without E x) u v l := by
  induction hl with
  | single u => exact .single u
  | @cons u w v l huw hl ih =>
      rw [List.mem_cons, not_or] at hx
      refine .cons ⟨huw, Ne.symm hx.1, ?_⟩ (ih hx.2)
      rintro rfl
      exact hx.2 hl.head_mem

theorem dominates_of (h : Dominates E r d v) : Dominates (Without E x) r d v := by
  rw [dominates_iff] at h ⊢
  rintro ⟨hne, hwalk⟩
  exact h ⟨hne, Relation.ReflTransGen.mono (fun _ _ h => ⟨h.1.1, h.2⟩) _ _ hwalk⟩

/-- Where `x` does not lead to, dominators stay. -/
theorem dominates_iff_of_unreached (hx : ¬ Reaches E x v) :
    Dominates (Without E x) r d v ↔ Dominates E r d v := by
  refine ⟨fun h l hl => h l (isPath hl ?_), dominates_of⟩
  intro hmem
  obtain ⟨l', hl', -⟩ := hl.exists_suffix hmem
  exact hx hl'.reaches

theorem isIdom_iff_of_unreached (hx : ¬ Reaches E x v) (hv : Reaches E r v) :
    IsIdom (Without E x) r d v ↔ IsIdom E r d v := by
  have hdom : ∀ {c}, Dominates (Without E x) r c v ↔ Dominates E r c v :=
    dominates_iff_of_unreached hx
  -- A dominator of `v` leads to `v`, so `x` does not lead to it.
  have habove : ∀ {c}, Dominates E r d v →
      (Dominates (Without E x) r c d ↔ Dominates E r c d) := fun hdv =>
    dominates_iff_of_unreached fun hxd =>
      hx (Relation.ReflTransGen.trans hxd (hdv.reaches_from hv))
  constructor
  · intro h
    have hdv := hdom.1 h.dominates
    exact ⟨h.ne, hdv, fun c hc hcv => (habove hdv).1 (h.last c hc (hdom.2 hcv))⟩
  · intro h
    refine ⟨h.ne, hdom.2 h.dominates, fun c hc hcv => ?_⟩
    exact (habove h.dominates).2 (h.last c hc (hdom.1 hcv))

end Without

end Foundation
end Jstd
