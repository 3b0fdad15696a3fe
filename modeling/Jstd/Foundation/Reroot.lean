import Jstd.Foundation.Dominance
import Jstd.Foundation.Reversal

/-!
# Dominance seen from inside

A vertex that dominates others is their root as well: below `v`, dominance from `v` is dominance
from the root, and what dominates a vertex from the root dominates `v` or comes after it
(`Dominates.reroot_iff`).  So immediate dominators are the same from both (`IsIdom.reroot_iff`).

The converse direction needs that dominators do not come in circles on the way out either: two
vertices that must be passed after each other are one (`eq_of_mutual`), which is antisymmetry in
the reversed graph.
-/

namespace Jstd
namespace Foundation

variable {V : Type} {E : V → V → Prop} {r v n d c : V}

/-- A vertex of a walk is the start of one of its final parts. -/
theorem IsPath.exists_suffix {u x : V} {l : List V} (h : IsPath E u v l) (hx : x ∈ l) :
    ∃ l', IsPath E x v l' ∧ l' ⊆ l := by
  induction h with
  | single u =>
      obtain rfl := List.mem_singleton.1 hx
      exact ⟨[x], .single x, List.Subset.refl _⟩
  | cons huv hp ih =>
      rcases List.mem_cons.1 hx with rfl | hx
      · exact ⟨_, .cons huv hp, List.Subset.refl _⟩
      · obtain ⟨l', hl', hsub⟩ := ih hx
        exact ⟨l', hl', List.subset_cons_of_subset _ hsub⟩

/-- The way from the root goes on from each dominator. -/
theorem Dominates.reaches_from (hvn : Dominates E r v n) (hn : Reaches E r n) :
    Reaches E v n := by
  obtain ⟨l, hl⟩ := exists_path_of_reaches hn
  obtain ⟨l', hl', -⟩ := hl.exists_suffix (hvn l hl)
  exact hl'.reaches

/-- If every walk from either of two vertices to `n` passes the other, they are one. -/
theorem eq_of_mutual (hreach : Reaches E v n) (hcn : Dominates E v c n)
    (hvn : Dominates E c v n) : c = v := by
  have hback : Reaches (Reversed E (Eq n)) none (some v) := by
    obtain ⟨l, hl⟩ := exists_path_of_reaches hreach
    exact (hl.reversed rfl).reaches
  have hcv : Dominates (Reversed E (Eq n)) none (some c) (some v) := by
    refine dominates_reversed_iff.2 ?_
    rintro e l rfl hl
    exact hcn l hl
  have hvc : Dominates (Reversed E (Eq n)) none (some v) (some c) := by
    refine dominates_reversed_iff.2 ?_
    rintro e l rfl hl
    exact hvn l hl
  exact Option.some.inj (hcv.antisymm hback hvc)

namespace Dominates

/-- What comes between `v` and a vertex it dominates is dominated by `v`. -/
theorem of_between (hvn : Dominates E r v n) (hn : Reaches E r n) (hdn : Dominates E v d n) :
    Dominates E r v d := by
  by_contra hnot
  have hdv : ¬ Dominates E d v n := by
    intro hback
    obtain rfl := eq_of_mutual (hvn.reaches_from hn) hdn hback
    exact hnot (.refl r d)
  -- Around `v` to `d`, and around it from there on.
  rw [dominates_iff, not_not] at hnot hdv
  exact dominates_iff.1 hvn ⟨hnot.1, hnot.2.trans hdv.2⟩

/-- The dominators of a vertex below `v` are those of `v`, and those it has from `v` on. -/
theorem reroot_iff (hvn : Dominates E r v n) :
    Dominates E r d n ↔ Dominates E r d v ∨ Dominates E v d n := by
  constructor
  · intro hdn
    by_contra hnot
    rw [not_or, dominates_iff, not_not, dominates_iff, not_not] at hnot
    obtain ⟨⟨hne, hto⟩, -, hfrom⟩ := hnot
    exact dominates_iff.1 hdn ⟨hne, hto.trans hfrom⟩
  · rintro (hdv | hdn)
    · exact hdv.trans hvn
    · intro l hl
      obtain ⟨l', hl', hsub⟩ := hl.exists_suffix (hvn l hl)
      exact hsub (hdn l' hl')

/-- Only `v` itself is on both sides. -/
theorem eq_of_both (hvn : Dominates E r v n) (hn : Reaches E r n) (hdv : Dominates E r d v)
    (hdn : Dominates E v d n) : d = v :=
  hdv.antisymm (hvn.reaches hn) (hvn.of_between hn hdn)

/-- The dominators of a vertex are ordered. -/
theorem comparable (hvn : Dominates E r v n) (hdn : Dominates E r d n) (hn : Reaches E r n) :
    Dominates E r v d ∨ Dominates E r d v := by
  rcases hvn.reroot_iff.1 hdn with hdv | hdn
  · exact .inr hdv
  · exact .inl (hvn.of_between hn hdn)

end Dominates

/-- Below `v` immediate dominators are the same from the root and from `v`. -/
theorem IsIdom.reroot_iff (hvn : Dominates E r v n) (hn : Reaches E r n) (hne : v ≠ n) :
    IsIdom E r d n ↔ IsIdom E v d n := by
  constructor
  · intro h
    have hvd := h.last v hne hvn
    refine ⟨h.ne, ?_, fun c hc hcn => ?_⟩
    · rcases hvn.reroot_iff.1 h.dominates with hdv | hdn
      · obtain rfl := hdv.antisymm (hvn.reaches hn) hvd
        exact .root d n
      · exact hdn
    · -- From the root `c` dominates `d`, and not above `v` unless it is `v`.
      have hcd := h.last c hc (hvn.reroot_iff.2 (.inr hcn))
      rcases hvd.reroot_iff.1 hcd with hcv | hcd
      · obtain rfl := hvn.eq_of_both hn hcv hcn
        exact .root c d
      · exact hcd
  · intro h
    have hvd := hvn.of_between hn h.dominates
    refine ⟨h.ne, hvn.reroot_iff.2 (.inr h.dominates), fun c hc hcn => ?_⟩
    rcases hvn.reroot_iff.1 hcn with hcv | hcn
    · exact hcv.trans hvd
    · exact hvd.reroot_iff.2 (.inr (h.last c hc hcn))

/-- Between vertices below `v`, frontiers are the same from both. -/
theorem InFrontier.reroot_iff {y : V} (hvn : Dominates E r v n) (hvy : Dominates E r v y)
    (hn : Reaches E r n) (hy : Reaches E r y) (hne : v ≠ y) :
    InFrontier E r n y ↔ InFrontier E v n y := by
  -- What dominates `v` and is below it is `v`, so only the side below counts.
  have hbelow : ∀ {w}, Dominates E r v w → (Dominates E r n w ↔ Dominates E v n w) := by
    intro w hvw
    rw [hvw.reroot_iff]
    refine ⟨?_, .inr⟩
    rintro (hnv | hnw)
    · obtain rfl := hnv.antisymm (hvn.reaches hn) hvn
      exact .root n w
    · exact hnw
  refine and_congr ⟨?_, ?_⟩ (not_congr (and_congr_left fun _ => hbelow hvy))
  · rintro ⟨p, hp, hpy, hnp⟩
    have hvp := hvy.of_edge hne hpy
    exact ⟨p, hvp.reaches_from hp, hpy, (hbelow hvp).1 hnp⟩
  · rintro ⟨p, hp, hpy, hnp⟩
    have hrp : Reaches E r p := Relation.ReflTransGen.trans (hvy.reaches hy) hp
    exact ⟨p, hrp, hpy, (hbelow (hvy.of_edge hne hpy)).2 hnp⟩

end Foundation
end Jstd
