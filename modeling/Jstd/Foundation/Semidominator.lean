import Mathlib.Order.Lattice.Nat
import Jstd.Foundation.DepthFirst

/-!
# Semidominator — immediate dominators from a preorder numbering

The semidominator of `w` is the least vertex with a walk to `w` whose inner vertices are all larger
than `w`.  Three results make it useful:

* `sdom_recurrence`: semidominators can be computed from the predecessors, in decreasing order;
* `isIdom_sdom`: the semidominator is the immediate dominator when no vertex on the tree path below
  it has a smaller one;
* `isIdom_of_least`: otherwise the vertex with the least semidominator on that path has the same
  immediate dominator.

The argument common to the last two is `DepthFirst.exists_jump`: a walk that avoids a tree ancestor
of its end jumps over it into the tree path below.
-/

namespace Jstd
namespace Foundation

/-- The least start of a walk to `w` through vertices larger than `w`. -/
noncomputable def sdom (E : Nat → Nat → Prop) (w : Nat) : Nat :=
  sInf {v | Through E (fun y => w < y) v w}

theorem sdom_le {E : Nat → Nat → Prop} {v w : Nat} (h : Through E (fun y => w < y) v w) :
    sdom E w ≤ v :=
  Nat.sInf_le h

namespace DepthFirst

variable {E : Nat → Nat → Prop} {parent : Nat → Nat} {n : Nat} (D : DepthFirst E parent n)

include D

theorem through_bounds {P : Nat → Prop} {u v : Nat} (h : Through E P u v) :
    (1 ≤ u ∧ u ≤ n) ∧ 1 ≤ v ∧ v ≤ n := by
  induction h with
  | edge huv =>
      obtain ⟨h1, h2, h3, h4⟩ := D.bounds huv
      exact ⟨⟨h1, h2⟩, h3, h4⟩
  | snoc _ _ hvw ih =>
      obtain ⟨-, -, h3, h4⟩ := D.bounds hvw
      exact ⟨ih.1, h3, h4⟩

/-! ## The semidominator is a proper ancestor -/

theorem sdom_through {w : Nat} (hw : 2 ≤ w) (hwn : w ≤ n) :
    Through E (fun y => w < y) (sdom E w) w :=
  Nat.sInf_mem (s := {v | Through E (fun y => w < y) v w})
    ⟨parent w, .edge (D.parent_edge hw hwn)⟩

theorem sdom_lt {w : Nat} (hw : 2 ≤ w) (hwn : w ≤ n) : sdom E w < w :=
  Nat.lt_of_le_of_lt (sdom_le (.edge (D.parent_edge hw hwn))) (D.parent_lt hw hwn)

theorem sdom_anc {w : Nat} (hw : 2 ≤ w) (hwn : w ≤ n) : Anc parent (sdom E w) w := by
  have hlt := D.sdom_lt hw hwn
  refine D.anc_of_through ((D.sdom_through hw hwn).mono ?_) (Nat.le_of_lt hlt)
  intro y hy
  omega

theorem one_le_sdom {w : Nat} (hw : 2 ≤ w) (hwn : w ≤ n) : 1 ≤ sdom E w :=
  (D.through_bounds (D.sdom_through hw hwn)).1.1

/-! ## The recurrence -/

theorem sdom_le_of_anc {u v w : Nat} (h : E v w) (huv : Anc parent u v) (hwu : w < u) :
    sdom E w ≤ sdom E u := by
  obtain ⟨-, hvn, hw1, -⟩ := D.bounds h
  have hle := D.anc_le huv hvn
  have hto : Through E (fun y => w < y) (sdom E u) u := by
    refine (D.sdom_through (by omega) (by omega)).mono ?_
    intro y hy
    omega
  have hdown : Relation.ReflTransGen (fun a b => E a b ∧ w < b) u v := by
    refine Relation.ReflTransGen.mono ?_ _ _ (D.tree_path huv hvn)
    rintro a b ⟨hab, hub, -⟩
    exact ⟨hab, by omega⟩
  obtain ⟨hall, hv⟩ := hto.append hwu hdown
  exact sdom_le (.snoc hall hv h)

/-- A walk to `v` above `w` passes an ancestor `u` of `v` it reaches through vertices above `u`. -/
theorem exists_anc_through {w x v : Nat} (h : Through E (fun y => w < y) x v) (hv : w < v) :
    ∃ u, w < u ∧ Anc parent u v ∧ Through E (fun y => u < y) x u := by
  induction v using Nat.strongRecOn with
  | _ v ih =>
      rcases h.above_or_dip v with habove | ⟨m, hmv, hwm, hxm, hdip⟩
      · refine ⟨v, hv, .refl, habove.simple_end.mono ?_⟩
        rintro y ⟨⟨-, hvy⟩, hne⟩
        omega
      · obtain ⟨u, hwu, hum, hxu⟩ := ih m hmv hxm hwm
        exact ⟨u, hwu, hum.trans (D.anc_of_through hdip (Nat.le_of_lt hmv)), hxu⟩

/-- The semidominator of `w` is a predecessor, or at least that of an ancestor above `w` of one. -/
theorem sdom_recurrence {w : Nat} (hw : 2 ≤ w) (hwn : w ≤ n) :
    E (sdom E w) w ∨
      ∃ v u, E v w ∧ Anc parent u v ∧ w < u ∧ sdom E u ≤ sdom E w := by
  cases D.sdom_through hw hwn with
  | edge h => exact .inl h
  | @snoc v _ hprev hwv hvw =>
      obtain ⟨u, hwu, huv, hxu⟩ := D.exists_anc_through hprev hwv
      exact .inr ⟨v, u, hvw, huv, hwu, sdom_le hxu⟩

/-! ## Dominators and the tree -/

theorem anc_of_dominates {c w : Nat} (h : Dominates E 1 c w) (hw : 1 ≤ w) (hwn : w ≤ n) :
    Anc parent c w := by
  by_contra hanc
  refine dominates_iff.1 h ⟨?_, ?_⟩
  · rintro rfl
    exact hanc (D.root_anc hw hwn)
  · refine Relation.ReflTransGen.mono ?_ _ _ (D.tree_path (D.root_anc hw hwn) hwn)
    rintro a b ⟨hab, -, hb⟩
    exact ⟨hab, by rintro rfl; exact hanc hb⟩

/-- A vertex has at most one immediate dominator. -/
theorem isIdom_unique {d d' w : Nat} (hw : 1 ≤ w) (hwn : w ≤ n) (h : IsIdom E 1 d w)
    (h' : IsIdom E 1 d' w) : d = d' := by
  have hd := D.anc_of_dominates h.dominates hw hwn
  have hd' := D.anc_of_dominates h'.dominates hw hwn
  have hle := D.anc_le hd hwn
  have hle' := D.anc_le hd' hwn
  have hdd' := D.anc_of_dominates (h'.last d h.ne h.dominates) (D.one_le_of_anc hd' hw hwn)
    (by omega)
  have hd'd := D.anc_of_dominates (h.last d' h'.ne h'.dominates) (D.one_le_of_anc hd hw hwn)
    (by omega)
  exact Nat.le_antisymm (D.anc_le hdd' (by omega)) (D.anc_le hd'd (by omega))

/-- A proper dominator of `w` dominates the semidominator of `w`. -/
theorem dominates_sdom {c w : Nat} (hw : 2 ≤ w) (hwn : w ≤ n) (hne : c ≠ w)
    (h : Dominates E 1 c w) : Dominates E 1 c (sdom E w) := by
  have hle := D.anc_le (D.anc_of_dominates h (by omega) hwn) hwn
  rw [dominates_iff]
  rintro ⟨hroot, hreach⟩
  have hrest : Relation.ReflTransGen (fun a b => E a b ∧ b ≠ c) (sdom E w) w := by
    refine ((D.sdom_through hw hwn).mono (Q := fun y => y ≠ c) ?_).restricted (Ne.symm hne)
    intro y hy
    omega
  exact dominates_iff.1 h ⟨hroot, hreach.trans hrest⟩

theorem anc_sdom_of_dominates {c w : Nat} (hw : 2 ≤ w) (hwn : w ≤ n) (hne : c ≠ w)
    (h : Dominates E 1 c w) : Anc parent c (sdom E w) :=
  D.anc_of_dominates (D.dominates_sdom hw hwn hne h) (D.one_le_sdom hw hwn)
    (by have := D.sdom_lt hw hwn; omega)

/-- A walk from the root that avoids the ancestor `t` of its end `w` jumps from below `t` into the
tree path from `t` to `w`. -/
theorem exists_jump {t w : Nat} (ht : Anc parent t w) (hw : 1 ≤ w) (hwn : w ≤ n)
    (h : ¬ Dominates E 1 t w) :
    ∃ x z, x < t ∧ t < z ∧ Anc parent t z ∧ Anc parent z w ∧
      Through E (fun y => z < y) x z := by
  by_contra hno
  rw [dominates_iff, not_not] at h
  obtain ⟨hroot, hwalk⟩ := h
  have ht1 := D.one_le_of_anc ht hw hwn
  have htw := D.anc_le ht hwn
  let Off : Nat → Prop := fun y => t < y ∧ ¬ (Anc parent t y ∧ Anc parent y w)
  -- Along the walk: still below `t`, or past it, off the tree path, and never back since.
  have hinv : ∀ y, Relation.ReflTransGen (fun a b => E a b ∧ b ≠ t) 1 y →
      y < t ∨ (Off y ∧ ∃ x < t, Through E Off x y) := by
    intro y hy
    induction hy with
    | refl => exact .inl (by omega)
    | @tail y z _ hstep ih =>
        obtain ⟨hyz, hne⟩ := hstep
        rcases Nat.lt_or_ge z t with hzt | hzt
        · exact .inl hzt
        · have hx : ∃ x < t, Through E Off x z := by
            rcases ih with hyt | ⟨hoff, x, hxt, hxy⟩
            · exact ⟨y, hyt, .edge hyz⟩
            · exact ⟨x, hxt, .snoc hxy hoff hyz⟩
          have hlt : t < z := by omega
          refine .inr ⟨⟨hlt, ?_⟩, hx⟩
          rintro ⟨htz, hzw⟩
          obtain ⟨x, hxt, hxz⟩ := hx
          rcases hxz.above_or_dip z with habove | ⟨m, hmz, ⟨htm, hoff⟩, -, hdip⟩
          · refine hno ⟨x, z, hxt, hlt, htz, hzw, habove.mono ?_⟩
            rintro y' ⟨⟨-, hoff'⟩, hle⟩
            rcases Nat.lt_or_eq_of_le hle with h | rfl
            · exact h
            · exact absurd ⟨htz, hzw⟩ hoff'
          · have hmz' := D.anc_of_through hdip (Nat.le_of_lt hmz)
            have hzn := D.anc_le hzw hwn
            exact hoff ⟨D.anc_of_le htz hmz' (by omega) (by omega), hmz'.trans hzw⟩
  rcases hinv w hwalk with hlt | ⟨⟨-, hoff⟩, -⟩
  · omega
  · exact hoff ⟨ht, .refl⟩

/-- When no vertex on the tree path below the semidominator has a smaller one, the semidominator is
the immediate dominator. -/
theorem isIdom_sdom {w : Nat} (hw : 2 ≤ w) (hwn : w ≤ n)
    (hmin : ∀ x, sdom E w < x → Anc parent x w → sdom E w ≤ sdom E x) :
    IsIdom E 1 (sdom E w) w where
  ne := Nat.ne_of_lt (D.sdom_lt hw hwn)
  dominates := by
    by_contra h
    obtain ⟨x, z, hx, hz, -, hzw, hthrough⟩ :=
      D.exists_jump (D.sdom_anc hw hwn) (by omega) hwn h
    have hle := sdom_le hthrough
    have hge := hmin z hz hzw
    omega
  last _ hne h := D.dominates_sdom hw hwn hne h

/-- Otherwise the vertex with the least semidominator on that path has the same immediate
dominator. -/
theorem isIdom_of_least {u w d : Nat} (hw : 2 ≤ w) (hwn : w ≤ n) (hu : sdom E w < u)
    (huw : Anc parent u w) (hlt : sdom E u < sdom E w)
    (hleast : ∀ x, sdom E w < x → Anc parent x w → sdom E u ≤ sdom E x)
    (hd : IsIdom E 1 d u) : IsIdom E 1 d w := by
  have hun := D.anc_le huw hwn
  have hsw := D.one_le_sdom hw hwn
  have hdu : Anc parent d (sdom E u) :=
    D.anc_sdom_of_dominates (by omega) (by omega) hd.ne hd.dominates
  have hdle := D.anc_le hdu (by have := D.sdom_lt hw hwn; omega)
  have hdw : Anc parent d w := (hdu.trans (D.sdom_anc (by omega) (by omega))).trans huw
  refine ⟨?_, ?_, ?_⟩
  · have := D.sdom_lt hw hwn
    omega
  · by_contra h
    obtain ⟨x, z, hx, hz, -, hzw, hthrough⟩ := D.exists_jump hdw (by omega) hwn h
    have hzle := sdom_le hthrough
    have hzs : z ≤ sdom E w := by
      by_contra hgt
      have := hleast z (by omega) hzw
      omega
    -- Then `z` lies above `u`, and the jump reaches `u` without `d`.
    have hzu : Anc parent z u := D.anc_of_le hzw huw hwn (by omega)
    obtain ⟨⟨hx1, hxn⟩, -⟩ := D.through_bounds hthrough
    have hfirst : Relation.ReflTransGen (fun a b => E a b ∧ b ≠ d) 1 x := by
      refine Relation.ReflTransGen.mono ?_ _ _ (D.tree_path (D.root_anc hx1 hxn) hxn)
      rintro a b ⟨hab, -, hb⟩
      have := D.anc_le hb hxn
      exact ⟨hab, by omega⟩
    have hsecond : Relation.ReflTransGen (fun a b => E a b ∧ b ≠ d) x z := by
      refine (hthrough.mono (Q := fun y => y ≠ d) ?_).restricted (by omega)
      intro y hy
      omega
    have hthird : Relation.ReflTransGen (fun a b => E a b ∧ b ≠ d) z u := by
      refine Relation.ReflTransGen.mono ?_ _ _ (D.tree_path hzu (by omega))
      rintro a b ⟨hab, hzb, -⟩
      exact ⟨hab, by omega⟩
    exact dominates_iff.1 hd.dominates ⟨by omega, (hfirst.trans hsecond).trans hthird⟩
  · intro c hne hc
    have hcs := D.anc_le (D.anc_sdom_of_dominates hw hwn hne hc)
      (by have := D.sdom_lt hw hwn; omega)
    refine hd.last c (by omega) (dominates_iff.2 ?_)
    rintro ⟨hroot, hreach⟩
    have hdown : Relation.ReflTransGen (fun a b => E a b ∧ b ≠ c) u w := by
      refine Relation.ReflTransGen.mono ?_ _ _ (D.tree_path huw hwn)
      rintro a b ⟨hab, hub, -⟩
      exact ⟨hab, by omega⟩
    exact dominates_iff.1 hc ⟨hroot, hreach.trans hdown⟩

end DepthFirst

end Foundation
end Jstd
