import Mathlib.Data.Set.Basic
import Jstd.Foundation.Path

/-!
# Multigraph — walks that avoid edges

Edges are named, so that two of them may join the same vertices; `Walk P` uses only edges that
satisfy `P`.  Everything about dominance, post-dominance and cycles of *edges* is a statement about
`Avoiding a`, the walks without the edge `a`, and `Walk.split` is the one surgery behind it: a walk
either avoids an edge, or it has a part before its first and a part after its last use of it.
-/

namespace Jstd
namespace Foundation

/-- A directed graph with named edges; names that satisfy `IsEdge` are used. -/
structure Multigraph (V I : Type) where
  src : I → V
  dst : I → V
  IsEdge : I → Prop

namespace Multigraph

variable {V I : Type} (G : Multigraph V I)

/-- One edge that satisfies `P`. -/
def Step (P : I → Prop) (u v : V) : Prop :=
  ∃ i, G.IsEdge i ∧ P i ∧ G.src i = u ∧ G.dst i = v

/-- A walk along edges that satisfy `P`. -/
def Walk (P : I → Prop) (u v : V) : Prop :=
  Relation.ReflTransGen (G.Step P) u v

/-- A walk along any edges. -/
def Connected (u v : V) : Prop :=
  G.Walk (fun _ => True) u v

/-- A walk that does not use `a`. -/
def Avoiding (a : I) (u v : V) : Prop :=
  G.Walk (fun i => i ≠ a) u v

namespace Walk

variable {G} {P Q : I → Prop} {u v w : V}

theorem refl (v : V) : G.Walk P v v :=
  Relation.ReflTransGen.refl

theorem trans (h : G.Walk P u v) (h' : G.Walk P v w) : G.Walk P u w :=
  Relation.ReflTransGen.trans h h'

theorem edge {i : I} (hi : G.IsEdge i) (hP : P i) : G.Walk P (G.src i) (G.dst i) :=
  Relation.ReflTransGen.single ⟨i, hi, hP, rfl, rfl⟩

theorem mono (h : G.Walk P u v) (hPQ : ∀ i, P i → Q i) : G.Walk Q u v := by
  refine Relation.ReflTransGen.mono ?_ _ _ h
  rintro x y ⟨i, hi, hP, hx, hy⟩
  exact ⟨i, hi, hPQ i hP, hx, hy⟩

theorem connected (h : G.Walk P u v) : G.Connected u v :=
  h.mono fun _ _ => trivial

/-- A set that no edge of the walk leaves keeps it. -/
theorem stays (h : G.Walk P u v) {S : Set V} (hu : u ∈ S)
    (hS : ∀ i, G.IsEdge i → P i → G.src i ∈ S → G.dst i ∈ S) : v ∈ S := by
  induction h with
  | refl => exact hu
  | tail _ hstep ih =>
      obtain ⟨i, hi, hP, rfl, rfl⟩ := hstep
      exact hS i hi hP ih

/-- A walk out of a set uses an edge that leaves it. -/
theorem exists_leaving (h : G.Walk P u v) {S : Set V} (hu : u ∈ S) (hv : v ∉ S) :
    ∃ i, G.IsEdge i ∧ P i ∧ G.src i ∈ S ∧ G.dst i ∉ S := by
  by_contra hno
  refine hv (h.stays hu ?_)
  intro i hi hP hsrc
  by_contra hdst
  exact hno ⟨i, hi, hP, hsrc, hdst⟩

/-- A walk into a set uses an edge that enters it. -/
theorem exists_entering (h : G.Walk P u v) {S : Set V} (hu : u ∉ S) (hv : v ∈ S) :
    ∃ i, G.IsEdge i ∧ P i ∧ G.src i ∉ S ∧ G.dst i ∈ S := by
  obtain ⟨i, hi, hP, hsrc, hdst⟩ := h.exists_leaving (S := {x | x ∉ S}) hu (by simpa using hv)
  exact ⟨i, hi, hP, hsrc, by simpa using hdst⟩

/-- A walk avoids `e`, or has a part before its first and a part after its last use of `e`. -/
theorem split (h : G.Walk P u v) (e : I) :
    G.Walk (fun i => P i ∧ i ≠ e) u v ∨
      (G.IsEdge e ∧ P e ∧ G.Walk (fun i => P i ∧ i ≠ e) u (G.src e) ∧
        G.Walk (fun i => P i ∧ i ≠ e) (G.dst e) v) := by
  induction h with
  | refl => exact .inl (.refl _)
  | tail _ hstep ih =>
      obtain ⟨i, hi, hP, rfl, rfl⟩ := hstep
      by_cases hie : i = e
      · subst hie
        rcases ih with h | ⟨-, -, hfirst, -⟩
        · exact .inr ⟨hi, hP, h, .refl _⟩
        · exact .inr ⟨hi, hP, hfirst, .refl _⟩
      · have hlast := Walk.edge (P := fun i => P i ∧ i ≠ e) hi ⟨hP, hie⟩
        rcases ih with h | ⟨he, hPe, hfirst, hrest⟩
        · exact .inl (h.trans hlast)
        · exact .inr ⟨he, hPe, hfirst, hrest.trans hlast⟩

/-- A walk avoids `e`, or its part after the last use of `e` does. -/
theorem after (h : G.Walk P u v) (e : I) :
    G.Walk (fun i => P i ∧ i ≠ e) u v ∨
      (G.IsEdge e ∧ P e ∧ G.Walk (fun i => P i ∧ i ≠ e) (G.dst e) v) := by
  rcases h.split e with h | ⟨he, hP, -, h⟩
  · exact .inl h
  · exact .inr ⟨he, hP, h⟩

/-- A walk avoids `e`, or its part before the first use of `e` does. -/
theorem before (h : G.Walk P u v) (e : I) :
    G.Walk (fun i => P i ∧ i ≠ e) u v ∨
      (G.IsEdge e ∧ P e ∧ G.Walk (fun i => P i ∧ i ≠ e) u (G.src e)) := by
  rcases h.split e with h | ⟨he, hP, h, -⟩
  · exact .inl h
  · exact .inr ⟨he, hP, h⟩

end Walk

/-- A walk to the source of `e` either way: its part before `e` does not use `e`. -/
theorem avoiding_src {G : Multigraph V I} {P : I → Prop} {u : V} {e : I}
    (h : G.Walk P u (G.src e)) : G.Walk (fun i => P i ∧ i ≠ e) u (G.src e) := by
  rcases h.split e with h | ⟨-, -, h, -⟩
  · exact h
  · exact h

/-- A walk from the target of `e` either way. -/
theorem avoiding_dst {G : Multigraph V I} {P : I → Prop} {v : V} {e : I}
    (h : G.Walk P (G.dst e) v) : G.Walk (fun i => P i ∧ i ≠ e) (G.dst e) v := by
  rcases h.split e with h | ⟨-, -, -, h⟩
  · exact h
  · exact h

/-! ## Cycle equivalence -/

/-- No cycle contains exactly one of the edges. -/
structure CycleEquivalent (a b : I) : Prop where
  left : ¬ G.Avoiding b (G.dst a) (G.src a)
  right : ¬ G.Avoiding a (G.dst b) (G.src b)

namespace CycleEquivalent

variable {G} {a b c : I}

theorem symm (h : G.CycleEquivalent a b) : G.CycleEquivalent b a :=
  ⟨h.right, h.left⟩

/-- A cycle through `a` that avoids `c` would pass `b`, so it would be one through `b`. -/
private theorem trans_left (ha : G.IsEdge a) (hab : G.CycleEquivalent a b)
    (hbc : G.CycleEquivalent b c) (hac : a ≠ c) : ¬ G.Avoiding c (G.dst a) (G.src a) := by
  intro h
  rcases h.split b with h | ⟨-, hne, hfirst, hlast⟩
  · exact hab.left (h.mono fun i hi => hi.2)
  · have hcycle := (hlast.mono fun _ hi => hi.1).trans
      ((Walk.edge (P := fun i => i ≠ c) ha hac).trans (hfirst.mono fun _ hi => hi.1))
    exact hbc.left hcycle

theorem trans (ha : G.IsEdge a) (hc : G.IsEdge c) (hab : G.CycleEquivalent a b)
    (hbc : G.CycleEquivalent b c) (hac : a ≠ c) : G.CycleEquivalent a c :=
  ⟨trans_left ha hab hbc hac, trans_left hc hbc.symm hab.symm (Ne.symm hac)⟩

end CycleEquivalent

/-! ## Closed walks -/

/-- The edges of `p` lead from `u` to `v`. -/
def Follows : V → List I → V → Prop
  | u, [], v => u = v
  | u, i :: p, v => G.IsEdge i ∧ G.src i = u ∧ Follows (G.dst i) p v

/-- The edges of `p` lead back to where they begin. -/
def IsClosedWalk (p : List I) : Prop :=
  ∃ v, G.Follows v p v

section

variable {G} {P : I → Prop} {u v w : V}

theorem Follows.append {p q : List I} (hp : G.Follows u p v) (hq : G.Follows v q w) :
    G.Follows u (p ++ q) w := by
  induction p generalizing u with
  | nil =>
      obtain rfl : u = v := hp
      exact hq
  | cons i p ih =>
      obtain ⟨hi, hsrc, hrest⟩ := hp
      exact ⟨hi, hsrc, ih hrest⟩

theorem Follows.walk {p : List I} (h : G.Follows u p v) (hP : ∀ i ∈ p, P i) : G.Walk P u v := by
  induction p generalizing u with
  | nil =>
      obtain rfl : u = v := h
      exact .refl u
  | cons i p ih =>
      obtain ⟨hi, rfl, hrest⟩ := h
      refine .trans (.edge hi (hP i List.mem_cons_self)) ?_
      exact ih hrest fun j hj => hP j (List.mem_cons_of_mem i hj)

theorem Walk.exists_follows (h : G.Walk P u v) : ∃ p, G.Follows u p v ∧ ∀ i ∈ p, P i := by
  induction h with
  | refl => exact ⟨[], rfl, by simp⟩
  | tail _ hstep ih =>
      obtain ⟨i, hi, hPi, rfl, rfl⟩ := hstep
      obtain ⟨p, hp, hPp⟩ := ih
      refine ⟨p ++ [i], hp.append ⟨hi, rfl, rfl⟩, ?_⟩
      intro j hj
      rcases List.mem_append.1 hj with hj | hj
      · exact hPp j hj
      · obtain rfl := List.mem_singleton.1 hj
        exact hPi

/-- A walk splits at an edge it uses. -/
theorem Follows.split {p : List I} {i : I} (h : G.Follows u p v) (hi : i ∈ p) :
    ∃ q r, p = q ++ i :: r ∧ G.Follows u q (G.src i) ∧ G.Follows (G.dst i) r v := by
  induction p generalizing u with
  | nil => cases hi
  | cons j p ih =>
      obtain ⟨hj, rfl, hrest⟩ := h
      rcases List.mem_cons.1 hi with rfl | hi
      · exact ⟨[], p, rfl, rfl, hrest⟩
      · obtain ⟨q, r, rfl, hq, hr⟩ := ih hrest hi
        exact ⟨j :: q, r, rfl, ⟨hj, rfl, hq⟩, hr⟩

/-- Some closed walk uses `a` but no edge outside `P`. -/
theorem exists_closedWalk_iff {a : I} (ha : G.IsEdge a) (hP : P a) :
    (∃ p, G.IsClosedWalk p ∧ a ∈ p ∧ ∀ i ∈ p, P i) ↔ G.Walk P (G.dst a) (G.src a) := by
  constructor
  · rintro ⟨p, ⟨v, hp⟩, hmem, hall⟩
    obtain ⟨q, r, rfl, hq, hr⟩ := hp.split hmem
    refine (hr.walk fun i hi => hall i ?_).trans (hq.walk fun i hi => hall i ?_)
    · exact List.mem_append_right q (List.mem_cons_of_mem a hi)
    · exact List.mem_append_left (a :: r) hi
  · intro h
    obtain ⟨p, hp, hall⟩ := h.exists_follows
    refine ⟨a :: p, ⟨G.src a, ha, rfl, hp⟩, List.mem_cons_self, ?_⟩
    intro i hi
    rcases List.mem_cons.1 hi with rfl | hi
    · exact hP
    · exact hall i hi

/-- Distinct edges are cycle equivalent when no closed walk contains exactly one of them. -/
theorem cycleEquivalent_iff {a b : I} (ha : G.IsEdge a) (hb : G.IsEdge b) (hab : a ≠ b) :
    G.CycleEquivalent a b ↔ ∀ p, G.IsClosedWalk p → (a ∈ p ↔ b ∈ p) := by
  have havoid : ∀ {a b : I}, G.IsEdge a → a ≠ b →
      (¬ G.Avoiding b (G.dst a) (G.src a) ↔ ∀ p, G.IsClosedWalk p → a ∈ p → b ∈ p) := by
    intro a b ha hab
    rw [Avoiding, ← exists_closedWalk_iff ha hab]
    constructor
    · intro hno p hp hmem
      by_contra hb
      exact hno ⟨p, hp, hmem, fun i hi heq => hb (heq ▸ hi)⟩
    · rintro hall ⟨p, hp, hmem, hne⟩
      exact hne b (hall p hp hmem) rfl
  constructor
  · intro h p hp
    exact ⟨(havoid ha hab).1 h.left p hp, (havoid hb hab.symm).1 h.right p hp⟩
  · intro h
    exact ⟨(havoid ha hab).2 fun p hp => (h p hp).1, (havoid hb hab.symm).2 fun p hp => (h p hp).2⟩

/-- An edge is equivalent to itself when no closed walk contains it. -/
theorem cycleEquivalent_self_iff {a : I} (ha : G.IsEdge a) :
    G.CycleEquivalent a a ↔ ∀ p, G.IsClosedWalk p → a ∉ p := by
  have hcycle : G.Avoiding a (G.dst a) (G.src a) ↔ ∃ p, G.IsClosedWalk p ∧ a ∈ p := by
    constructor
    · intro h
      obtain ⟨p, hp, hmem, -⟩ := (exists_closedWalk_iff ha trivial).2 h.connected
      exact ⟨p, hp, hmem⟩
    · rintro ⟨p, hp, hmem⟩
      have h := (exists_closedWalk_iff ha trivial).1 ⟨p, hp, hmem, fun _ _ => trivial⟩
      exact (avoiding_src (avoiding_dst h)).mono fun i hi => hi.2
  constructor
  · intro h p hp hmem
    exact h.left (hcycle.2 ⟨p, hp, hmem⟩)
  · intro h
    have hno : ¬ G.Avoiding a (G.dst a) (G.src a) := by
      intro hwalk
      obtain ⟨p, hp, hmem⟩ := hcycle.1 hwalk
      exact h p hp hmem
    exact ⟨hno, hno⟩

end

/-! ## Graphs that differ in their names -/

/-- A renaming of vertices and edges; vertices outside `Live` are not used. -/
structure Renaming {W J : Type} (G : Multigraph V I) (H : Multigraph W J) (Live : V → Prop)
    (vert : V → W) (edge : I → J) : Prop where
  isEdge : ∀ i, G.IsEdge i → H.IsEdge (edge i)
  surj : ∀ j, H.IsEdge j → ∃ i, G.IsEdge i ∧ edge i = j
  inj : ∀ i j, G.IsEdge i → G.IsEdge j → edge i = edge j → i = j
  src : ∀ i, G.IsEdge i → H.src (edge i) = vert (G.src i)
  dst : ∀ i, G.IsEdge i → H.dst (edge i) = vert (G.dst i)
  src_live : ∀ i, G.IsEdge i → Live (G.src i)
  dst_live : ∀ i, G.IsEdge i → Live (G.dst i)
  vert_inj : ∀ u v, Live u → Live v → vert u = vert v → u = v

namespace Renaming

variable {W J : Type} {G} {H : Multigraph W J} {Live : V → Prop} {vert : V → W} {edge : I → J}
  {P : I → Prop} {Q : J → Prop} {u v : V}

theorem walk_map (R : Renaming G H Live vert edge) (hPQ : ∀ i, G.IsEdge i → P i → Q (edge i))
    (h : G.Walk P u v) : H.Walk Q (vert u) (vert v) := by
  induction h with
  | refl => exact .refl _
  | tail _ hstep ih =>
      obtain ⟨i, hi, hP, rfl, rfl⟩ := hstep
      refine ih.trans ?_
      rw [← R.src i hi, ← R.dst i hi]
      exact .edge (R.isEdge i hi) (hPQ i hi hP)

theorem walk_lift (R : Renaming G H Live vert edge)
    (hQP : ∀ i, G.IsEdge i → Q (edge i) → P i) (hu : Live u) {w : W}
    (h : H.Walk Q (vert u) w) : ∃ v, Live v ∧ vert v = w ∧ G.Walk P u v := by
  induction h with
  | refl => exact ⟨u, hu, rfl, .refl _⟩
  | tail _ hstep ih =>
      obtain ⟨j, hj, hQ, rfl, rfl⟩ := hstep
      obtain ⟨v, hv, hvert, hwalk⟩ := ih
      obtain ⟨i, hi, rfl⟩ := R.surj j hj
      rw [R.src i hi] at hvert
      obtain rfl := R.vert_inj v (G.src i) hv (R.src_live i hi) hvert
      exact ⟨G.dst i, R.dst_live i hi, (R.dst i hi).symm, hwalk.trans (.edge hi (hQP i hi hQ))⟩

/-- Renaming changes no walk. -/
theorem walk_iff (R : Renaming G H Live vert edge)
    (hPQ : ∀ i, G.IsEdge i → (P i ↔ Q (edge i))) (hu : Live u) (hv : Live v) :
    G.Walk P u v ↔ H.Walk Q (vert u) (vert v) := by
  constructor
  · exact R.walk_map fun i hi => (hPQ i hi).1
  · intro h
    obtain ⟨v', hv', heq, hwalk⟩ := R.walk_lift (fun i hi => (hPQ i hi).2) hu h
    obtain rfl := R.vert_inj v' v hv' hv heq
    exact hwalk

theorem avoiding_iff (R : Renaming G H Live vert edge) {a : I} (ha : G.IsEdge a) (hu : Live u)
    (hv : Live v) : G.Avoiding a u v ↔ H.Avoiding (edge a) (vert u) (vert v) := by
  refine R.walk_iff (fun i hi => ?_) hu hv
  exact not_congr ⟨fun h => h ▸ rfl, R.inj i a hi ha⟩

end Renaming

end Multigraph

end Foundation
end Jstd
