import Mathlib.Data.Set.Basic
import Jstd.Foundation.Multigraph

/-!
# Cut — cycle equivalence without cycles

A set of vertices is crossed by the edges with one end in it.  A closed walk crosses a set as often
outwards as inwards, so two edges that are the only ones to cross some set lie on the same closed
walks.  Where every edge lies on a cycle the converse holds, and a statement about all closed walks
becomes one about a single set.
-/

namespace Jstd
namespace Foundation
namespace Multigraph

variable {V I : Type} {G : Multigraph V I}

/-- One end of `i` is in `S`, the other is not. -/
def Straddles (G : Multigraph V I) (S : Set V) (i : I) : Prop :=
  ¬ (G.src i ∈ S ↔ G.dst i ∈ S)

/-- The edges `a` and `b`, and no others, cross `S`. -/
structure IsCut (G : Multigraph V I) (S : Set V) (a b : I) : Prop where
  left : G.Straddles S a
  right : G.Straddles S b
  only : ∀ i, G.IsEdge i → G.Straddles S i → i = a ∨ i = b

/-- Every edge lies on a closed walk. -/
def Cyclic (G : Multigraph V I) : Prop :=
  ∀ i, G.IsEdge i → G.Connected (G.dst i) (G.src i)

theorem straddles_of_leaving {S : Set V} {i : I} (hsrc : G.src i ∈ S) (hdst : G.dst i ∉ S) :
    G.Straddles S i :=
  fun h => hdst (h.1 hsrc)

theorem straddles_of_entering {S : Set V} {i : I} (hsrc : G.src i ∉ S) (hdst : G.dst i ∈ S) :
    G.Straddles S i :=
  fun h => hsrc (h.2 hdst)

namespace IsCut

variable {S : Set V} {a b : I}

theorem symm (h : G.IsCut S a b) : G.IsCut S b a :=
  ⟨h.right, h.left, fun i hi hS => (h.only i hi hS).symm⟩

/-- A walk from the end of `a` back to its start crosses the set again, by `b`. -/
theorem not_avoiding (h : G.IsCut S a b) : ¬ G.Avoiding b (G.dst a) (G.src a) := by
  intro hwalk
  by_cases hsrc : G.src a ∈ S
  · have hdst : G.dst a ∉ S := fun hdst => h.left (iff_of_true hsrc hdst)
    obtain ⟨i, hi, hib, hi1, hi2⟩ := hwalk.exists_entering hdst hsrc
    rcases h.only i hi (straddles_of_entering hi1 hi2) with rfl | rfl
    · exact hi1 hsrc
    · exact hib rfl
  · have hdst : G.dst a ∈ S := by
      by_contra hdst
      exact h.left (iff_of_false hsrc hdst)
    obtain ⟨i, hi, hib, hi1, hi2⟩ := hwalk.exists_leaving hdst hsrc
    rcases h.only i hi (straddles_of_leaving hi1 hi2) with rfl | rfl
    · exact hsrc hi1
    · exact hib rfl

theorem cycleEquivalent (h : G.IsCut S a b) : G.CycleEquivalent a b :=
  ⟨h.not_avoiding, h.symm.not_avoiding⟩

end IsCut

/-- What the end of `a` leads to without `b` is crossed by `a` and `b` only. -/
theorem CycleEquivalent.isCut {a b : I} (h : G.CycleEquivalent a b) (hcyclic : G.Cyclic)
    (ha : G.IsEdge a) : G.IsCut {v | G.Avoiding b (G.dst a) v} a b := by
  have hstep : ∀ {i v}, G.IsEdge i → i ≠ b → G.src i = v → G.Avoiding b (G.dst a) v →
      G.Avoiding b (G.dst a) (G.dst i) := by
    rintro i v hi hib rfl hv
    exact hv.trans (Walk.edge hi hib)
  have hsrcb : G.Avoiding b (G.dst a) (G.src b) := by
    rcases (hcyclic a ha).split b with hwalk | ⟨-, -, hfirst, -⟩
    · exact absurd (hwalk.mono fun i hi => hi.2) h.left
    · exact hfirst.mono fun i hi => hi.2
  have hdstb : ¬ G.Avoiding b (G.dst a) (G.dst b) := by
    intro hdst
    rcases (hcyclic a ha).after b with hwalk | ⟨-, -, hlast⟩
    · exact h.left (hwalk.mono fun i hi => hi.2)
    · exact h.left (hdst.trans (hlast.mono fun i hi => hi.2))
  refine ⟨straddles_of_entering h.left (.refl _), straddles_of_leaving hsrcb hdstb, ?_⟩
  intro i hi hcross
  by_contra hno
  rw [not_or] at hno
  obtain ⟨hia, hib⟩ := hno
  by_cases hsrc : G.Avoiding b (G.dst a) (G.src i)
  · exact hcross (iff_of_true hsrc (hstep hi hib rfl hsrc))
  · have hdst : G.Avoiding b (G.dst a) (G.dst i) := by
      by_contra hdst
      exact hcross (iff_of_false hsrc hdst)
    -- The cycle through `i` leaves the set by `b`, and neither of its parts uses `a`.
    rcases (hcyclic i hi).split b with hwalk | ⟨-, -, hfirst, hlast⟩
    · exact hsrc (hdst.trans (hwalk.mono fun j hj => hj.2))
    · have hlasta : G.Avoiding a (G.dst b) (G.src i) := by
        rcases hlast.after a with hwalk | ⟨-, -, hwalk⟩
        · exact hwalk.mono fun j hj => hj.2
        · exact absurd (hwalk.mono fun j hj => hj.1.2) hsrc
      have hfirsta : G.Avoiding a (G.dst i) (G.src b) := by
        rcases hfirst.before a with hwalk | ⟨-, -, hwalk⟩
        · exact hwalk.mono fun j hj => hj.2
        · exact absurd (hdst.trans (hwalk.mono fun j hj => hj.1.2)) h.left
      exact h.right (hlasta.trans ((Walk.edge hi hia).trans hfirsta))

theorem cycleEquivalent_iff_isCut (hcyclic : G.Cyclic) {a b : I} (ha : G.IsEdge a) :
    G.CycleEquivalent a b ↔ ∃ S, G.IsCut S a b := by
  constructor
  · intro h
    exact ⟨_, h.isCut hcyclic ha⟩
  · rintro ⟨S, hS⟩
    exact hS.cycleEquivalent

/-! ## Crossing two sets -/

/-- An edge crosses the symmetric difference when it crosses one of the sets and not the other. -/
theorem straddles_xor {S T : Set V} {i : I} :
    G.Straddles {v | ¬ (v ∈ S ↔ v ∈ T)} i ↔ ¬ (G.Straddles S i ↔ G.Straddles T i) := by
  simp only [Straddles, Set.mem_ofPred_eq]
  grind

end Multigraph
end Foundation
end Jstd
