import Mathlib.Data.Set.Card
import Jstd.Foundation.Path

/-!
# Dominance — the order of the dominators, and the frontier

Among the vertices that some walk reaches, dominance is a partial order, and an immediate dominator
is dominated by all other dominators (`IsIdom.dominates_iff`).  So whoever goes from a vertex to its
immediate dominator, and on, meets exactly its dominators, each of which has fewer than the one
before (`IsIdom.ncard_lt`).

The frontier of `n` is where its dominance ends: `InFrontier` is the definition by walks.

Post-dominance looks the other way, at the walks that may stop.  There need not be any, and then
every vertex post-dominates: it is the greatest solution of its equations
(`PostDominates.of_closed`).

All of it is decided by the edges of the vertices the root reaches (`AgreeFrom`).
-/

namespace Jstd
namespace Foundation

variable {V : Type} {E : V → V → Prop} {r u v d n p : V}

/-- `n` dominates a reachable predecessor of `y`, but not strictly `y` itself. -/
def InFrontier (E : V → V → Prop) (r n y : V) : Prop :=
  (∃ p, Reaches E r p ∧ E p y ∧ Dominates E r n p) ∧ ¬ (Dominates E r n y ∧ n ≠ y)

/-! ## The order -/

theorem Dominates.trans (hud : Dominates E r u d) (hdv : Dominates E r d v) :
    Dominates E r u v := by
  intro l hl
  obtain ⟨l', hl', hsub⟩ := hl.exists_prefix (hdv l hl)
  exact hsub (hud l' hl')

theorem Dominates.reaches (hdv : Dominates E r d v) (hv : Reaches E r v) : Reaches E r d := by
  obtain ⟨l, hl⟩ := exists_path_of_reaches hv
  obtain ⟨l', hl', -⟩ := hl.exists_prefix (hdv l hl)
  exact hl'.reaches

/-- The last vertex before the first arrival at `v`: the way to it does not need `v`. -/
theorem exists_pred_not_dominated (hv : Reaches E r v) (hne : v ≠ r) :
    ∃ u, Reaches E r u ∧ E u v ∧ ¬ Dominates E r v u := by
  -- Along the walk, either it has arrived before or there is a way around `v`.
  have main : ∀ w, Reaches E r w →
      (∃ u, Reaches E r u ∧ E u v ∧ ¬ Dominates E r v u) ∨ (w ≠ v ∧ ¬ Dominates E r v w) := by
    intro w hw
    induction hw with
    | refl =>
        refine .inr ⟨hne.symm, fun hdom => hne ?_⟩
        exact List.mem_singleton.1 (hdom [r] (.single r))
    | @tail w w' hw hww' ih =>
        rcases ih with hdone | ⟨hwv, haround⟩
        · exact .inl hdone
        · by_cases hw' : w' = v
          · subst hw'
            exact .inl ⟨w, hw, hww', haround⟩
          · refine .inr ⟨hw', fun hdom => haround ?_⟩
            intro l hl
            have hmem := hdom _ (hl.snoc hww')
            rcases List.mem_append.1 hmem with hmem | hmem
            · exact hmem
            · exact absurd (List.mem_singleton.1 hmem).symm hw'
  rcases main v hv with hdone | ⟨hvv, -⟩
  · exact hdone
  · exact absurd rfl hvv

/-- Two vertices that dominate each other are equal. -/
theorem Dominates.antisymm (hv : Reaches E r v) (hdv : Dominates E r d v)
    (hvd : Dominates E r v d) : d = v := by
  by_contra hne
  by_cases hvr : v = r
  · subst hvr
    exact hne (List.mem_singleton.1 (hdv [v] (.single v)))
  · obtain ⟨u, -, huv, haround⟩ := exists_pred_not_dominated hv hvr
    refine haround ?_
    intro l hl
    -- The way around `v` would pass `d`, and `v` with it.
    have hmem : d ∈ l ++ [v] := hdv _ (hl.snoc huv)
    have hd : d ∈ l := by
      rcases List.mem_append.1 hmem with hmem | hmem
      · exact hmem
      · exact absurd (List.mem_singleton.1 hmem) hne
    obtain ⟨l', hl', hsub⟩ := hl.exists_prefix hd
    exact hsub (hvd l' hl')

/-- A strict dominator of a vertex dominates the sources of its edges. -/
theorem Dominates.of_edge (hdv : Dominates E r d v) (hne : d ≠ v) (huv : E u v) :
    Dominates E r d u := by
  intro l hl
  rcases List.mem_append.1 (hdv _ (hl.snoc huv)) with hmem | hmem
  · exact hmem
  · exact absurd (List.mem_singleton.1 hmem) hne

/-- What dominates all sources of edges to `v` dominates `v`. -/
theorem Dominates.of_preds (hne : v ≠ r)
    (hall : ∀ u, Reaches E r u → E u v → Dominates E r d u) : Dominates E r d v := by
  rw [dominates_iff]
  rintro ⟨hrd, hwalk⟩
  cases hwalk with
  | refl => exact hne rfl
  | @tail u _ hru huv =>
      have hreach : Reaches E r u := Relation.ReflTransGen.mono (fun _ _ h => h.1) _ _ hru
      exact dominates_iff.1 (hall u hreach huv.1) ⟨hrd, hru⟩

/-! ## Immediate dominators -/

namespace IsIdom

/-- The dominators of a vertex are itself and those of its immediate dominator. -/
theorem dominates_iff (h : IsIdom E r d v) : Dominates E r n v ↔ n = v ∨ Dominates E r n d := by
  constructor
  · intro hn
    by_cases hnv : n = v
    · exact .inl hnv
    · exact .inr (h.last n hnv hn)
  · rintro (rfl | hn)
    · exact .refl r n
    · exact hn.trans h.dominates

/-- A vertex does not dominate its immediate dominator. -/
theorem not_dominates (h : IsIdom E r d v) (hv : Reaches E r v) : ¬ Dominates E r v d :=
  fun hvd => h.ne (h.dominates.antisymm hv hvd)

/-- The immediate dominator has fewer dominators. -/
theorem ncard_lt (h : IsIdom E r d v) (hv : Reaches E r v)
    (hfinite : {n | Reaches E r n}.Finite) :
    {n | Dominates E r n d}.ncard < {n | Dominates E r n v}.ncard := by
  have hsub : {n | Dominates E r n v} ⊆ {n | Reaches E r n} := fun n hn => hn.reaches hv
  refine Set.ncard_lt_ncard ⟨fun n hn => h.dominates_iff.2 (.inr hn), fun hsup => ?_⟩
    (hfinite.subset hsub)
  exact h.not_dominates hv (hsup (.refl r v))

/-- The frontier, through the immediate dominator: what stops at `v` dominates a predecessor of
`v`, but not the immediate dominator of `v`. -/
theorem inFrontier_iff (h : IsIdom E r d v) (hv : Reaches E r v) :
    InFrontier E r n v ↔
      ∃ p, Reaches E r p ∧ E p v ∧ Dominates E r n p ∧ ¬ Dominates E r n d := by
  have hstrict : (Dominates E r n v ∧ n ≠ v) ↔ Dominates E r n d := by
    rw [h.dominates_iff]
    constructor
    · rintro ⟨rfl | hn, hne⟩
      · exact absurd rfl hne
      · exact hn
    · intro hn
      refine ⟨.inr hn, ?_⟩
      rintro rfl
      exact h.not_dominates hv hn
  rw [InFrontier, hstrict]
  constructor
  · rintro ⟨⟨p, hp, hpv, hnp⟩, hnd⟩
    exact ⟨p, hp, hpv, hnp, hnd⟩
  · rintro ⟨p, hp, hpv, hnp, hnd⟩
    exact ⟨⟨p, hp, hpv, hnp⟩, hnd⟩

/-- Nothing stops at a vertex all edges to which come from one other. -/
theorem not_inFrontier_of_unique (h : IsIdom E r d v) (hv : Reaches E r v) (hne : v ≠ r)
    (honly : ∀ u, Reaches E r u → E u v → u = p) : ¬ InFrontier E r n v := by
  rw [h.inFrontier_iff hv]
  rintro ⟨u, hu, huv, hnu, hnd⟩
  obtain rfl := honly u hu huv
  have hnv : Dominates E r n v := by
    refine .of_preds hne fun w hw hwv => ?_
    rw [honly w hw hwv]
    exact hnu
  obtain ⟨w, hw, hwv, hdom⟩ := exists_pred_not_dominated hv hne
  obtain rfl := honly w hw hwv
  rcases h.dominates_iff.1 hnv with rfl | hnd'
  · exact hdom hnu
  · exact hnd hnd'

end IsIdom

/-- The root is in the frontier of whatever dominates the source of an edge to it. -/
theorem inFrontier_root_iff :
    InFrontier E r n r ↔ ∃ p, Reaches E r p ∧ E p r ∧ Dominates E r n p := by
  constructor
  · rintro ⟨h, -⟩
    exact h
  · intro h
    refine ⟨h, ?_⟩
    rintro ⟨hn, hne⟩
    exact hne (List.mem_singleton.1 (hn [r] (.single r)))

/-! ## Post-dominance -/

/-- Where a walk may stop: at an exit, or where no edge leads on. -/
def Stops (E : V → V → Prop) (Exit : V → Prop) (v : V) : Prop :=
  Exit v ∨ ∀ w, ¬ E v w

/-- Every walk from `n` that may stop passes `p`. -/
def PostDominates (E : V → V → Prop) (Exit : V → Prop) (p n : V) : Prop :=
  ∀ e l, Stops E Exit e → IsPath E n e l → p ∈ l

section

variable {Exit : V → Prop}

/-- An exit is post-dominated by itself only. -/
theorem postDominates_exit (hn : Exit n) : PostDominates E Exit p n ↔ p = n := by
  constructor
  · intro h
    exact List.mem_singleton.1 (h n [n] (.inl hn) (.single n))
  · rintro rfl e l _ hl
    exact hl.head_mem

/-- Every other vertex by itself, and by what post-dominates all its successors. -/
theorem postDominates_step (hn : ¬ Exit n) :
    PostDominates E Exit p n ↔
      p = n ∨ (∃ w, E n w) ∧ ∀ w, E n w → PostDominates E Exit p w := by
  constructor
  · intro h
    by_cases hpn : p = n
    · exact .inl hpn
    · refine .inr ⟨?_, ?_⟩
      · by_contra hdead
        exact hpn (List.mem_singleton.1
          (h n [n] (.inr fun w hw => hdead ⟨w, hw⟩) (.single n)))
      · intro w hnw e l he hl
        exact (List.mem_cons.1 (h e (n :: l) he (.cons hnw hl))).resolve_left hpn
  · rintro (rfl | ⟨⟨w, hw⟩, hall⟩) e l he hl
    · exact hl.head_mem
    · cases hl with
      | single => exact absurd hw (he.resolve_left hn w)
      | cons hnv hl => exact List.mem_cons_of_mem n (hall _ hnv e _ he hl)

/-- Post-dominance is the greatest relation that satisfies these equations. -/
theorem PostDominates.of_closed {X : V → V → Prop}
    (hX : ∀ p n, X p n → p = n ∨ ¬ Exit n ∧ (∃ w, E n w) ∧ ∀ w, E n w → X p w)
    (h : X p n) : PostDominates E Exit p n := by
  intro e l he hl
  induction hl with
  | single u =>
      rcases hX p u h with rfl | ⟨hexit, ⟨w, hw⟩, -⟩
      · exact List.mem_singleton_self p
      · exact absurd hw (he.resolve_left hexit w)
  | cons huv _ ih =>
      rcases hX p _ h with rfl | ⟨-, -, hall⟩
      · exact List.mem_cons_self
      · exact List.mem_cons_of_mem _ (ih (hall _ huv) he)

end

/-! ## Graphs that agree where the root leads -/

/-- The vertices that `r` reaches have the same edges in both graphs. -/
def AgreeFrom (E F : V → V → Prop) (r : V) : Prop :=
  ∀ u, Reaches E r u → ∀ w, E u w ↔ F u w

namespace AgreeFrom

variable {F : V → V → Prop} {l : List V}

theorem reaches (h : AgreeFrom E F r) (hv : Reaches E r v) : Reaches F r v := by
  induction hv with
  | refl => exact .refl
  | tail hu hstep ih => exact .tail ih ((h _ hu _).1 hstep)

theorem symm (h : AgreeFrom E F r) : AgreeFrom F E r := by
  have hback : ∀ u, Reaches F r u → Reaches E r u := by
    intro u hu
    induction hu with
    | refl => exact .refl
    | tail _ hstep ih => exact .tail ih ((h _ ih _).2 hstep)
  exact fun u hu w => (h u (hback u hu) w).symm

theorem reaches_iff (h : AgreeFrom E F r) : Reaches E r v ↔ Reaches F r v :=
  ⟨h.reaches, h.symm.reaches⟩

/-- A walk of one graph from a vertex that `r` reaches is a walk of the other. -/
theorem isPath (h : AgreeFrom E F r) (hl : IsPath E u v l) (hu : Reaches E r u) :
    IsPath F u v l := by
  induction hl with
  | single u => exact .single u
  | cons hstep _ ih => exact .cons ((h _ hu _).1 hstep) (ih (.tail hu hstep))

theorem dominates_iff (h : AgreeFrom E F r) : Dominates E r d v ↔ Dominates F r d v :=
  ⟨fun hd l hl => hd l (h.symm.isPath hl .refl), fun hd l hl => hd l (h.isPath hl .refl)⟩

theorem inFrontier_iff (h : AgreeFrom E F r) : InFrontier E r n v ↔ InFrontier F r n v := by
  rw [InFrontier, InFrontier, h.dominates_iff]
  refine and_congr_left fun _ => exists_congr fun p => ?_
  constructor
  · rintro ⟨hp, hedge, hn⟩
    exact ⟨h.reaches hp, (h p hp v).1 hedge, h.dominates_iff.1 hn⟩
  · rintro ⟨hp, hedge, hn⟩
    exact ⟨h.symm.reaches hp, (h.symm p hp v).1 hedge, h.dominates_iff.2 hn⟩

theorem postDominates_iff {Exit Exit' : V → Prop} (h : AgreeFrom E F n)
    (hexit : ∀ e, Reaches E n e → (Exit e ↔ Exit' e)) :
    PostDominates E Exit p n ↔ PostDominates F Exit' p n := by
  have hstops : ∀ e, Reaches E n e → (Stops E Exit e ↔ Stops F Exit' e) := by
    intro e he
    rw [Stops, Stops, hexit e he]
    exact or_congr_right (forall_congr' fun w => not_congr (h e he w))
  constructor
  · intro hpost e l he hl
    have hl' := h.symm.isPath hl .refl
    exact hpost e l ((hstops e hl'.reaches).2 he) hl'
  · intro hpost e l he hl
    exact hpost e l ((hstops e hl.reaches).1 he) (h.isPath hl .refl)

end AgreeFrom

/-- The same vertices are reached, and dominance among them is the same. -/
structure SameDominance (E F : V → V → Prop) (r : V) : Prop where
  reaches_iff : ∀ v, Reaches E r v ↔ Reaches F r v
  dominates_iff : ∀ {v}, Reaches E r v → ∀ d, Dominates E r d v ↔ Dominates F r d v

namespace SameDominance

variable {F : V → V → Prop}

theorem symm (h : SameDominance E F r) : SameDominance F E r where
  reaches_iff v := (h.reaches_iff v).symm
  dominates_iff hv d := (h.dominates_iff ((h.reaches_iff _).2 hv) d).symm

theorem isIdom (h : SameDominance E F r) (hv : Reaches E r v) (hidom : IsIdom E r d v) :
    IsIdom F r d v where
  ne := hidom.ne
  dominates := (h.dominates_iff hv d).1 hidom.dominates
  last c hc hcv := by
    refine (h.dominates_iff (hidom.dominates.reaches hv) c).1 (hidom.last c hc ?_)
    exact (h.dominates_iff hv c).2 hcv

theorem isIdom_iff (h : SameDominance E F r) (hv : Reaches E r v) :
    IsIdom E r d v ↔ IsIdom F r d v :=
  ⟨h.isIdom hv, h.symm.isIdom ((h.reaches_iff v).1 hv)⟩

end SameDominance

theorem AgreeFrom.sameDominance {F : V → V → Prop} (h : AgreeFrom E F r) : SameDominance E F r where
  reaches_iff _ := h.reaches_iff
  dominates_iff _ _ := h.dominates_iff

end Foundation
end Jstd
