import Jstd.Foundation.Dominance

/-!
# One edge more

What an added edge does to the vertices reached and to dominance, for any relation: a walk either
does without the edge, or goes to its source and on from its target.

An edge back to a dominator of its source changes neither.
-/

namespace Jstd
namespace Foundation

variable {V : Type} {E : V → V → Prop} {r s t d v : V}

/-- `E`, and an edge from `s` to `t`. -/
def Extra (E : V → V → Prop) (s t u v : V) : Prop :=
  E u v ∨ u = s ∧ v = t

namespace Extra

theorem reaches_iff :
    Reaches (Extra E s t) r v ↔ Reaches E r v ∨ Reaches E r s ∧ Reaches E t v := by
  constructor
  · intro hwalk
    induction hwalk with
    | refl => exact .inl .refl
    | @tail u w _ hstep ih =>
        rcases hstep with hstep | ⟨rfl, rfl⟩
        · exact ih.imp (fun h => .tail h hstep) (And.imp_right fun h => .tail h hstep)
        · -- The edge itself: what follows it starts over at its target.
          exact .inr ⟨ih.elim id And.left, .refl⟩
  · have hsub : ∀ {u w}, Reaches E u w → Reaches (Extra E s t) u w :=
      fun h => Relation.ReflTransGen.mono (fun _ _ h => .inl h) _ _ h
    rintro (hwalk | ⟨hto, hfrom⟩)
    · exact hsub hwalk
    · exact .trans (.tail (hsub hto) (.inr ⟨rfl, rfl⟩)) (hsub hfrom)

/-- Walks that keep away from `d`. -/
theorem restrict (hd : t ≠ d) :
    (fun a b => Extra E s t a b ∧ b ≠ d) = Extra (fun a b => E a b ∧ b ≠ d) s t := by
  funext a b
  refine propext ⟨?_, ?_⟩
  · rintro ⟨hedge | hedge, hb⟩
    · exact .inl ⟨hedge, hb⟩
    · exact .inr hedge
  · rintro (⟨hedge, hb⟩ | ⟨rfl, rfl⟩)
    · exact ⟨.inl hedge, hb⟩
    · exact ⟨.inr ⟨rfl, rfl⟩, hd⟩

theorem restrict_target :
    (fun a b => Extra E s t a b ∧ b ≠ t) = fun a b => E a b ∧ b ≠ t := by
  funext a b
  refine propext ⟨?_, And.imp_left .inl⟩
  rintro ⟨hedge | ⟨-, hb⟩, hne⟩
  · exact ⟨hedge, hne⟩
  · exact absurd hb hne

/-- Exactly what is left of dominance: `d` must be on the old walks, and on one half of the new
ones or the other. -/
theorem dominates_iff : Dominates (Extra E s t) r d v ↔
    Dominates E r d v ∧ (Dominates E r d s ∨ Dominates E t d v) := by
  simp only [Foundation.dominates_iff]
  by_cases hd : t = d
  · subst hd
    rw [restrict_target]
    tauto
  · have hwalks := reaches_iff (E := fun a b => E a b ∧ b ≠ d) (r := r) (s := s) (t := t) (v := v)
    rw [← restrict hd, Reaches] at hwalks
    rw [hwalks]
    simp only [Reaches]
    tauto

end Extra

/-! ## Edges back -/

/-- An edge whose target dominates its source, or whose source is not reached. -/
theorem Extra.sameDominance (hback : Dominates E r t s) : SameDominance E (Extra E s t) r where
  reaches_iff v := by
    rw [Extra.reaches_iff]
    refine ⟨.inl, ?_⟩
    rintro (hv | ⟨hs, hv⟩)
    · exact hv
    · exact .trans (hback.reaches hs) hv
  dominates_iff := by
    intro v _ d
    rw [Extra.dominates_iff]
    refine ⟨fun hdv => ⟨hdv, ?_⟩, And.left⟩
    by_contra hnot
    rw [not_or] at hnot
    obtain ⟨hds, hdt⟩ := hnot
    -- A walk to `s` past `d` goes through `t`, and from there on to `v` past `d`.
    rw [Foundation.dominates_iff, not_not] at hds hdt
    obtain ⟨l, hl, hmiss⟩ := exists_path_of_restricted (P := (· ≠ d)) hds.1 hds.2
    obtain ⟨l', hl', hsub⟩ := hl.exists_prefix (hback l hl)
    have hto := (restricted_of_path hl' fun x hx => hmiss x (hsub hx)).2
    exact Foundation.dominates_iff.1 hdv ⟨hds.1, hto.trans hdt.2⟩

end Foundation
end Jstd
