import Jstd.Foundation.Dominance

/-!
# Contraction — merging a vertex into its only predecessor

Where `k` is the only vertex with an edge to `x`, a walk passes `x` right after `k`.  Contracting
the edge keeps every walk between the other vertices, up to leaving `x` out
(`OnlyPred.reaches_iff`), so dominance among them stays as it was (`OnlyPred.dominates_iff`), and
what `x` dominated immediately is left to `k` (`OnlyPred.isIdom_iff`).
-/

namespace Jstd
namespace Foundation

variable {V : Type} {E : V → V → Prop} {k x r u v d d' : V}

/-- The edges once `x` is merged into `k`, which takes over where `x` led. -/
def Contracted (E : V → V → Prop) (k x u v : V) : Prop :=
  v ≠ x ∧ (u ≠ x ∧ E u v ∨ u = k ∧ E x v)

/-- `k` is another vertex than `x`, and the only one with an edge to it. -/
structure OnlyPred (E : V → V → Prop) (k x : V) : Prop where
  ne : k ≠ x
  edge : E k x
  only : ∀ u, E u x → u = k

/-- There is one immediate dominator at most. -/
theorem IsIdom.unique (h : IsIdom E r d v) (h' : IsIdom E r d' v) (hv : Reaches E r v) :
    d = d' := by
  have hd := h'.last d h.ne h.dominates
  have hd' := h.last d' h'.ne h'.dominates
  exact hd.antisymm (h'.dominates.reaches hv) hd'

namespace OnlyPred

/-! ## Walks -/

theorem reaches_of_contracted (h : OnlyPred E k x) (hwalk : Reaches (Contracted E k x) r v) :
    Reaches E r v := by
  induction hwalk with
  | refl => exact .refl
  | tail _ hstep ih =>
      rcases hstep with ⟨-, ⟨-, hedge⟩ | ⟨rfl, hedge⟩⟩
      · exact .tail ih hedge
      · exact .tail (.tail ih h.edge) hedge

/-- A walk, as far as the last vertex that is left. -/
theorem contracted_of_reaches (h : OnlyPred E k x) (hr : r ≠ x) (hwalk : Reaches E r v) :
    v ≠ x ∧ Reaches (Contracted E k x) r v ∨ v = x ∧ Reaches (Contracted E k x) r k := by
  induction hwalk with
  | refl => exact .inl ⟨hr, .refl⟩
  | @tail u v _ huv ih =>
      by_cases hv : v = x
      · -- The walk enters `x`, so it was at `k`.
        subst hv
        obtain rfl := h.only u huv
        rcases ih with ⟨-, ih⟩ | ⟨hu, -⟩
        · exact .inr ⟨rfl, ih⟩
        · exact absurd hu h.ne
      · rcases ih with ⟨hu, ih⟩ | ⟨rfl, ih⟩
        · exact .inl ⟨hv, .tail ih ⟨hv, .inl ⟨hu, huv⟩⟩⟩
        · exact .inl ⟨hv, .tail ih ⟨hv, .inr ⟨rfl, huv⟩⟩⟩

theorem reaches_iff (h : OnlyPred E k x) (hr : r ≠ x) :
    Reaches (Contracted E k x) r v ↔ v ≠ x ∧ Reaches E r v := by
  constructor
  · intro hwalk
    refine ⟨?_, h.reaches_of_contracted hwalk⟩
    cases hwalk with
    | refl => exact hr
    | tail _ hstep => exact hstep.1
  · rintro ⟨hv, hwalk⟩
    rcases h.contracted_of_reaches hr hwalk with ⟨-, hwalk⟩ | ⟨heq, -⟩
    · exact hwalk
    · exact absurd heq hv

/-- Walks that avoid a vertex are walks of a smaller graph, where `k` keeps its place. -/
theorem restrict (h : OnlyPred E k x) (hd : d ≠ x) :
    OnlyPred (fun a b => E a b ∧ b ≠ d) k x :=
  ⟨h.ne, ⟨h.edge, hd.symm⟩, fun u hu => h.only u hu.1⟩

theorem contracted_restrict :
    Contracted (fun a b => E a b ∧ b ≠ d) k x = fun a b => Contracted E k x a b ∧ b ≠ d := by
  funext a b
  refine propext ?_
  simp only [Contracted]
  tauto

/-! ## Dominance -/

theorem dominates_iff (h : OnlyPred E k x) (hr : r ≠ x) (hd : d ≠ x) (hv : v ≠ x) :
    Dominates (Contracted E k x) r d v ↔ Dominates E r d v := by
  rw [Foundation.dominates_iff, Foundation.dominates_iff, ← contracted_restrict]
  have hwalks := (h.restrict hd).reaches_iff hr (v := v)
  rw [Reaches, Reaches, and_iff_right hv] at hwalks
  rw [hwalks]

/-- Nothing that is left is dominated by `x` any more. -/
theorem not_dominates (h : OnlyPred E k x) (hr : r ≠ x) (hv : Reaches (Contracted E k x) r v) :
    ¬ Dominates (Contracted E k x) r x v := by
  intro hdom
  exact ((h.reaches_iff hr).1 (hdom.reaches hv)).1 rfl

theorem dominates_pred (h : OnlyPred E k x) (hr : r ≠ x) : Dominates E r k x := by
  refine .of_preds hr.symm fun u _ hu => ?_
  rw [h.only u hu]
  exact .refl r k

/-- The immediate dominators of the vertices that are left: as before, with `k` for `x`. -/
theorem isIdom_of (h : OnlyPred E k x) (hr : r ≠ x) (hv : v ≠ x) (hreach : Reaches E r v)
    (hidom : IsIdom E r d v) :
    (d ≠ x → IsIdom (Contracted E k x) r d v) ∧
      (d = x → IsIdom (Contracted E k x) r k v) := by
  have hreach' : Reaches (Contracted E k x) r v := (h.reaches_iff hr).2 ⟨hv, hreach⟩
  -- A dominator after the contraction is left, and was one before.
  have hback : ∀ c, Dominates (Contracted E k x) r c v → c ≠ x ∧ Dominates E r c v := by
    intro c hc
    have hcx : c ≠ x := by
      rintro rfl
      exact h.not_dominates hr hreach' hc
    exact ⟨hcx, (h.dominates_iff hr hcx hv).1 hc⟩
  constructor
  · intro hd
    refine ⟨hidom.ne, (h.dominates_iff hr hd hv).2 hidom.dominates, fun c hcv hc => ?_⟩
    obtain ⟨hcx, hc⟩ := hback c hc
    exact (h.dominates_iff hr hcx hd).2 (hidom.last c hcv hc)
  · rintro rfl
    have hx : Reaches E r d := hidom.dominates.reaches hreach
    have hk : Dominates E r k d := h.dominates_pred hr
    have hkv : k ≠ v := by
      rintro rfl
      exact h.ne (hk.antisymm hx hidom.dominates)
    refine ⟨hkv, (h.dominates_iff hr h.ne hv).2 (hk.trans hidom.dominates), fun c hcv hc => ?_⟩
    obtain ⟨hcx, hc⟩ := hback c hc
    exact (h.dominates_iff hr hcx h.ne).2 ((hidom.last c hcv hc).of_edge hcx h.edge)

theorem isIdom_iff (h : OnlyPred E k x) (hr : r ≠ x) (hv : v ≠ x) (hreach : Reaches E r v)
    (hidom : IsIdom E r d v) [Decidable (d = x)] :
    IsIdom (Contracted E k x) r d' v ↔ d' = if d = x then k else d := by
  have hreach' : Reaches (Contracted E k x) r v := (h.reaches_iff hr).2 ⟨hv, hreach⟩
  obtain ⟨hleft, hmerged⟩ := h.isIdom_of hr hv hreach hidom
  constructor
  · intro hd'
    split
    · rename_i hd
      exact hd'.unique (hmerged hd) hreach'
    · rename_i hd
      exact hd'.unique (hleft hd) hreach'
  · rintro rfl
    split
    · rename_i hd
      exact hmerged hd
    · rename_i hd
      exact hleft hd

end OnlyPred

end Foundation
end Jstd
