import Mathlib.Data.List.Basic
import Jstd.Foundation.Path

/-!
# Reversal — the edges turned around, and one vertex that leads to all ends

Walks to an end become walks from the added vertex `none`, read backwards.  So what all walks from
`n` to an end pass is what dominates `n` in the reversed graph (`dominates_reversed_iff`).
-/

namespace Jstd
namespace Foundation

variable {V : Type} {E : V → V → Prop} {Stop : V → Prop} {n e p : V} {l : List V}

/-- The edges from `some v` lead to the predecessors of `v`, those from `none` to the ends. -/
def Reversed (E : V → V → Prop) (Stop : V → Prop) : Option V → Option V → Prop
  | none, some e => Stop e
  | some v, some u => E u v
  | _, none => False

/-- A walk to an end, read backwards. -/
theorem IsPath.reversed (hl : IsPath E n e l) (he : Stop e) :
    IsPath (Reversed E Stop) none (some n) (none :: l.reverse.map some) := by
  induction hl with
  | single u =>
      have hstart : Reversed E Stop none (some u) := he
      exact .cons hstart (.single (some u))
  | @cons u v w l huv hl ih =>
      have hback : Reversed E Stop (some v) (some u) := huv
      simpa using (ih he).snoc hback

/-- A walk from `none` that avoids `p` is a walk to an end that avoids `p`. -/
theorem exists_path_of_reversed {x : Option V}
    (h : Relation.ReflTransGen (fun a b => Reversed E Stop a b ∧ b ≠ some p) none x) :
    ∀ n, x = some n → ∃ e l, Stop e ∧ IsPath E n e l ∧ p ∉ l := by
  -- The induction is on the walk from `none`, whose steps are the last steps of the other.
  induction h with
  | refl =>
      intro n hn
      cases hn
  | @tail a b _ hstep ih =>
      rintro n rfl
      obtain ⟨hedge, hne⟩ := hstep
      have hpn : p ≠ n := by
        rintro rfl
        exact hne rfl
      cases a with
      | none => exact ⟨n, [n], hedge, .single n, by simpa using hpn⟩
      | some v =>
          obtain ⟨e, l, he, hl, hp⟩ := ih v rfl
          exact ⟨e, n :: l, he, .cons hedge hl, by simp [hpn, hp]⟩

theorem dominates_reversed_iff :
    Dominates (Reversed E Stop) none (some p) (some n) ↔
      ∀ e l, Stop e → IsPath E n e l → p ∈ l := by
  constructor
  · intro hdom e l he hl
    have hmem := hdom _ (hl.reversed he)
    simpa using hmem
  · intro hall
    rw [dominates_iff]
    rintro ⟨-, hwalk⟩
    obtain ⟨e, l, he, hl, hp⟩ := exists_path_of_reversed hwalk n rfl
    exact hp (hall e l he hl)

theorem reaches_reversed_iff :
    Reaches (Reversed E Stop) none (some n) ↔ ∃ e, Stop e ∧ Reaches E n e := by
  constructor
  · intro hwalk
    generalize hx : some n = x at hwalk
    induction hwalk generalizing n with
    | refl => cases hx
    | @tail a b _ hstep ih =>
        subst hx
        cases a with
        | none => exact ⟨n, hstep, .refl⟩
        | some v =>
            obtain ⟨e, he, hreach⟩ := ih rfl
            exact ⟨e, he, .head hstep hreach⟩
  · rintro ⟨e, he, hreach⟩
    obtain ⟨l, hl⟩ := exists_path_of_reaches hreach
    exact (hl.reversed he).reaches

end Foundation
end Jstd
