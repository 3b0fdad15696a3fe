import Mathlib.Logic.Relation
import Mathlib.Tactic.ByContra

/-!
# Path — walks of a directed graph, and the vertices every walk must pass

A graph is a relation on its vertices.  `IsPath` lists the vertices of a walk; `Through` keeps
only that the inner vertices satisfy a predicate, which is the form inductions want.

`Dominates` is the definition by walks; `dominates_iff` turns it into the unreachability it is used
as.
-/

namespace Jstd
namespace Foundation

variable {V : Type} {E : V → V → Prop}

/-- `l` lists the vertices of a walk from `u` to `v`, both ends included. -/
inductive IsPath (E : V → V → Prop) : V → V → List V → Prop
  | single (u : V) : IsPath E u u [u]
  | cons {u v w : V} {l : List V} : E u v → IsPath E v w l → IsPath E u w (u :: l)

/-- Some walk leads from `u` to `v`. -/
def Reaches (E : V → V → Prop) (u v : V) : Prop :=
  Relation.ReflTransGen E u v

/-- Every walk from `r` to `v` passes `d`. -/
def Dominates (E : V → V → Prop) (r d v : V) : Prop :=
  ∀ l, IsPath E r v l → d ∈ l

/-- `d` is the last vertex before `v` that every walk from `r` to `v` passes. -/
structure IsIdom (E : V → V → Prop) (r d v : V) : Prop where
  ne : d ≠ v
  dominates : Dominates E r d v
  last : ∀ c, c ≠ v → Dominates E r c v → Dominates E r c d

namespace IsPath

variable {u v w : V} {l l' : List V}

theorem reaches (h : IsPath E u v l) : Reaches E u v := by
  induction h with
  | single u => exact .refl
  | cons huv _ ih => exact .head huv ih

theorem head_mem (h : IsPath E u v l) : u ∈ l := by
  cases h with
  | single => exact List.mem_singleton_self u
  | cons _ _ => exact List.mem_cons_self

theorem last_mem (h : IsPath E u v l) : v ∈ l := by
  induction h with
  | single u => exact List.mem_singleton_self u
  | cons _ _ ih => exact List.mem_cons_of_mem _ ih

theorem snoc (h : IsPath E u v l) (hvw : E v w) : IsPath E u w (l ++ [w]) := by
  induction h with
  | single u => exact .cons hvw (.single w)
  | cons huv _ ih => exact .cons huv (ih hvw)

/-- A vertex of a walk is the end of one of its initial parts. -/
theorem exists_prefix (h : IsPath E u v l) {x : V} (hx : x ∈ l) :
    ∃ l', IsPath E u x l' ∧ l' ⊆ l := by
  induction h with
  | single u =>
      obtain rfl := List.mem_singleton.1 hx
      exact ⟨[x], .single x, List.Subset.refl _⟩
  | cons huv hp ih =>
      rcases List.mem_cons.1 hx with rfl | hx
      · exact ⟨[x], .single x, by simp⟩
      · obtain ⟨l', hl', hsub⟩ := ih hx
        exact ⟨_, .cons huv hl', List.cons_subset_cons _ hsub⟩

end IsPath

/-- A walk that keeps to `P` after its start. -/
theorem exists_path_of_restricted {P : V → Prop} {u v : V} (hu : P u)
    (h : Relation.ReflTransGen (fun a b => E a b ∧ P b) u v) :
    ∃ l, IsPath E u v l ∧ ∀ x ∈ l, P x := by
  induction h with
  | refl => exact ⟨[u], .single u, by simpa using hu⟩
  | tail _ hstep ih =>
      obtain ⟨l, hl, hP⟩ := ih
      refine ⟨_, hl.snoc hstep.1, ?_⟩
      intro x hx
      rcases List.mem_append.1 hx with hx | hx
      · exact hP x hx
      · obtain rfl := List.mem_singleton.1 hx
        exact hstep.2

theorem restricted_of_path {P : V → Prop} {u v : V} {l : List V} (h : IsPath E u v l)
    (hP : ∀ x ∈ l, P x) : P u ∧ Relation.ReflTransGen (fun a b => E a b ∧ P b) u v := by
  induction h with
  | single u => exact ⟨hP u (List.mem_singleton_self u), .refl⟩
  | cons huv _ ih =>
      obtain ⟨hv, hrest⟩ := ih fun x hx => hP x (List.mem_cons_of_mem _ hx)
      exact ⟨hP _ List.mem_cons_self, .head ⟨huv, hv⟩ hrest⟩

theorem exists_path_of_reaches {u v : V} (h : Reaches E u v) : ∃ l, IsPath E u v l := by
  obtain ⟨l, hl, -⟩ := exists_path_of_restricted (P := fun _ => True) trivial
    (Relation.ReflTransGen.mono (fun _ _ h => ⟨h, trivial⟩) _ _ h)
  exact ⟨l, hl⟩

/-- To dominate is to cut off. -/
theorem dominates_iff {r d v : V} :
    Dominates E r d v ↔
      ¬ (r ≠ d ∧ Relation.ReflTransGen (fun a b => E a b ∧ b ≠ d) r v) := by
  constructor
  · rintro hdom ⟨hne, hr⟩
    obtain ⟨l, hl, havoid⟩ := exists_path_of_restricted (P := fun x => x ≠ d) hne hr
    exact havoid d (hdom l hl) rfl
  · intro hcut l hl
    by_contra hmem
    refine hcut (restricted_of_path (P := fun x => x ≠ d) hl ?_)
    rintro x hx rfl
    exact hmem hx

theorem Dominates.refl (r v : V) : Dominates E r v v :=
  fun _ hl => hl.last_mem

theorem Dominates.root (r v : V) : Dominates E r r v :=
  fun _ hl => hl.head_mem

/-! ## Walks by their inner vertices -/

/-- A walk of at least one edge from `u` to `v`, all inner vertices of which satisfy `P`. -/
inductive Through (E : V → V → Prop) (P : V → Prop) (u : V) : V → Prop
  | edge {v : V} : E u v → Through E P u v
  | snoc {v w : V} : Through E P u v → P v → E v w → Through E P u w

namespace Through

variable {P Q : V → Prop} {u v w : V}

theorem mono (h : Through E P u v) (hPQ : ∀ x, P x → Q x) : Through E Q u v := by
  induction h with
  | edge huv => exact .edge huv
  | snoc _ hv hvw ih => exact .snoc ih (hPQ _ hv) hvw

/-- Going on from an end that satisfies `P`, through vertices that do. -/
theorem append (h : Through E P u v) (hv : P v)
    (hrest : Relation.ReflTransGen (fun a b => E a b ∧ P b) v w) :
    Through E P u w ∧ P w := by
  induction hrest with
  | refl => exact ⟨h, hv⟩
  | tail _ hstep ih => exact ⟨.snoc ih.1 ih.2 hstep.1, hstep.2⟩

/-- The walk as a restricted one, when its end satisfies `P` too. -/
theorem restricted (h : Through E P u v) (hv : P v) :
    Relation.ReflTransGen (fun a b => E a b ∧ P b) u v := by
  induction h with
  | edge huv => exact .single ⟨huv, hv⟩
  | snoc _ hx hxw ih => exact .tail (ih hx) ⟨hxw, hv⟩

/-- The first arrival at a vertex does not pass it on the way. -/
theorem first_arrival (h : Through E P u v) (x : V) :
    Through E (fun y => P y ∧ y ≠ x) u v ∨ Through E (fun y => P y ∧ y ≠ x) u x := by
  induction h with
  | edge huv => exact .inl (.edge huv)
  | @snoc y z _ hy hyw ih =>
      rcases ih with h | h
      · by_cases hyx : y = x
        · subst hyx
          exact .inr h
        · exact .inl (.snoc h ⟨hy, hyx⟩ hyw)
      · exact .inr h

/-- The first arrival at the end itself. -/
theorem simple_end (h : Through E P u v) : Through E (fun y => P y ∧ y ≠ v) u v :=
  (h.first_arrival v).elim id id

/-- Over numbered vertices: either all inner vertices are at least `k`, or the walk passes a vertex
`m < k` after which it stays at or above `m`. -/
theorem above_or_dip {E : Nat → Nat → Prop} {P : Nat → Prop} {u v : Nat} (k : Nat)
    (h : Through E P u v) :
    Through E (fun y => P y ∧ k ≤ y) u v ∨
      ∃ m < k, P m ∧ Through E P u m ∧ Through E (fun y => m ≤ y) m v := by
  induction h with
  | edge huv => exact .inl (.edge huv)
  | @snoc y z hprev hy hyw ih =>
      by_cases hk : k ≤ y
      · rcases ih with h | ⟨m, hm, hPm, hum, hmy⟩
        · exact .inl (.snoc h ⟨hy, hk⟩ hyw)
        · exact .inr ⟨m, hm, hPm, hum, .snoc hmy (by omega) hyw⟩
      · rcases ih with _ | ⟨m, hm, hPm, hum, hmy⟩
        · exact .inr ⟨y, by omega, hy, hprev, .edge hyw⟩
        · by_cases hmy' : m ≤ y
          · exact .inr ⟨m, hm, hPm, hum, .snoc hmy hmy' hyw⟩
          · exact .inr ⟨y, by omega, hy, hprev, .edge hyw⟩

end Through

end Foundation
end Jstd
