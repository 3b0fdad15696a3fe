import Jstd.StableArena.Wire

/-!
# truncate_issued takes a batch back exactly

Between a snapshot and its rollback an arena only grows: each of its three vectors keeps the
snapshot's as a prefix (`Extends`).  Pushes append.  A removal of a newer id works above the
snapshot, because a newer index never sits in an older slot, nor an older index in a newer one; so
what `swap_remove` moves, it moves among the newer slots.  `truncate_issued` is such removals, and
leaves nothing that is newer.
-/

namespace Jstd
namespace StableArena

open Foundation

variable {Id T : Type}

/-! ## What the newer slots do to the older ones -/

theorem prefix_swapRest {α : Type} {xs ys : List α} (h : xs <+: ys) {i : Nat}
    (hi : xs.length ≤ i) (hlt : i < ys.length) : xs <+: swapRest ys i := by
  rw [List.prefix_iff_getElem?] at h ⊢
  intro j hj
  have hlast : j < ys.length - 1 := by omega
  have hne : j ≠ i := by omega
  rw [swapRest_getElem? ys i j hlt, if_pos hlast, if_neg hne]
  exact h j hj

variable [Identifier Id]

/-- `b` holds everything `a` does, where `a` holds it, and possibly more behind it. -/
structure Extends (a b : StableArena Id T) : Prop where
  inv : b.Inv
  values : a.values <+: b.values
  slotIds : a.slotIds <+: b.slotIds
  locations : a.locations <+: b.locations

theorem Inv.extends_self {a : StableArena Id T} (ha : a.Inv) : Extends a a :=
  ⟨ha, List.prefix_rfl, List.prefix_rfl, List.prefix_rfl⟩

namespace Extends

variable {a b : StableArena Id T}

theorem location (h : Extends a b) {raw : Nat} (hraw : raw < a.locations.length) :
    b.locations[raw]? = a.locations[raw]? := by
  rw [List.getElem?_eq_getElem hraw]
  exact List.prefix_iff_getElem?.1 h.locations raw hraw

theorem slotId (h : Extends a b) {slot : Nat} (hslot : slot < a.slotIds.length) :
    b.slotIds[slot]? = a.slotIds[slot]? := by
  rw [List.getElem?_eq_getElem hslot]
  exact List.prefix_iff_getElem?.1 h.slotIds slot hslot

/-- An older index sits in an older slot. -/
theorem slot_lt (h : Extends a b) (ha : a.Inv) {raw slot : Nat}
    (hraw : raw < a.locations.length) (hloc : b.locations[raw]? = some slot)
    (hlive : slot ≠ DEAD) : slot < a.values.length := by
  rw [h.location hraw] at hloc
  exact ha.lt_of_location hloc hlive

/-- A newer index sits in a newer slot. -/
theorem le_slot (h : Extends a b) (ha : a.Inv) {raw slot : Nat}
    (hraw : a.locations.length ≤ raw) (hloc : b.locations[raw]? = some slot)
    (hlive : slot ≠ DEAD) : a.values.length ≤ slot := by
  by_contra hlt
  have hslot : slot < a.slotIds.length := by
    rw [ha.slots_len]
    omega
  have hid := h.inv.slot_of_location hloc hlive
  rw [h.slotId hslot] at hid
  have hold := (ha.location_of_slot hid).2
  have hrt : intoUsize (fromUsize raw : Id) = raw :=
    h.inv.roundTrips (List.getElem?_eq_some_iff.1 hloc).1
  rw [hrt] at hold
  have := (List.getElem?_eq_some_iff.1 hold).1
  omega

/-- Taking out a newer payload leaves the older slots and locations alone. -/
theorem removed (h : Extends a b) (ha : a.Inv) {raw slot : Nat}
    (hraw : a.locations.length ≤ raw) (hloc : b.locations[raw]? = some slot)
    (hlive : slot ≠ DEAD) : Extends a (b.removed raw slot) := by
  have hslot := h.inv.lt_of_location hloc hlive
  have hnewer := h.le_slot ha hraw hloc hlive
  refine ⟨h.inv.removed_inv hloc hlive, ?_, ?_, ?_⟩
  · exact prefix_swapRest h.values hnewer hslot
  · refine prefix_swapRest h.slotIds ?_ ?_
    · rw [ha.slots_len]
      exact hnewer
    · rw [h.inv.slots_len]
      exact hslot
  · rw [List.prefix_iff_getElem?]
    intro i hi
    have hne : i ≠ raw := by omega
    -- The payload that is moved sits in the last slot, so its index is newer as well.
    have hmoved : ¬ (slot < b.values.length - 1 ∧
        b.locations[i]? = some (b.values.length - 1)) := by
      rintro ⟨hmove, hlast⟩
      have hlive' : b.values.length - 1 ≠ DEAD := by
        have := h.inv.values_len
        omega
      have := h.slot_lt ha hi hlast hlive'
      omega
    rw [h.inv.removed_locations hloc hlive, if_neg hne, if_neg hmoved, h.location hi]
    exact List.getElem?_eq_getElem hi

theorem remove (h : Extends a b) (ha : a.Inv) {id : Id}
    (hid : a.locations.length ≤ intoUsize id) : Extends a ((StableArena.remove id).run b).2 := by
  cases hval : (b.abs[intoUsize id]?).join with
  | none =>
      obtain ⟨e, hrun⟩ := h.inv.remove_dead hval
      rw [hrun]
      exact h
  | some v =>
      obtain ⟨slot, hslot, hv⟩ := h.inv.liveSlot_of_abs hval
      obtain ⟨hloc, hlive⟩ := liveSlot_eq_some.1 hslot
      rw [h.inv.remove_run hslot hv]
      exact h.removed ha hid hloc hlive

theorem push (h : Extends a b) (value : T) : Extends a ((StableArena.push value).run b).2 := by
  by_cases hroom : b.locations.length < DEAD ∧ RoundTrips Id b.locations.length
  · have hvals : b.values.length < DEAD := by
      have := h.inv.len_le_issued
      omega
    obtain ⟨hrun, hinv, -⟩ := h.inv.push_spec value hroom.1 hvals hroom.2
    rw [hrun]
    exact ⟨hinv, h.values.trans (List.prefix_append _ _), h.slotIds.trans (List.prefix_append _ _),
      h.locations.trans (List.prefix_append _ _)⟩
  · obtain ⟨e, hrun⟩ := push_exhausted b value hroom
    rw [hrun]
    exact h

theorem removeIfLive (h : Extends a b) (ha : a.Inv) {raw : Nat}
    (hraw : a.locations.length ≤ raw) (hissued : raw < b.locations.length) :
    Extends a ((StableArena.removeIfLive raw : Method Panic (StableArena Id T) Unit).run b).2 := by
  have hrt : intoUsize (fromUsize raw : Id) = raw := h.inv.roundTrips hissued
  have hremove : Extends a ((StableArena.remove (fromUsize raw : Id)).run b).2 :=
    h.remove ha (by rw [hrt]; exact hraw)
  rw [StableArena.removeIfLive, Method.run_bind_get]
  cases hlive : b.contains (fromUsize raw : Id) with
  | false =>
      simp only [hlive, Bool.false_eq_true, if_false]
      exact h
  | true =>
      simp only [hlive, if_true]
      rcases hrun : (StableArena.remove (fromUsize raw : Id)).run b with ⟨result, b'⟩
      rw [hrun] at hremove
      cases result with
      | ok v =>
          rw [Method.run_bind_of_ok hrun]
          exact hremove
      | error e =>
          rw [Method.run_bind_of_error hrun]
          exact hremove

/-- With no newer index left, there is no newer slot either. -/
theorem eq_of_locations (h : Extends a b) (ha : a.Inv) (hlocations : b.locations = a.locations) :
    b = a := by
  have hlen : b.slotIds.length ≤ a.slotIds.length := by
    by_contra hlt
    have hslot : a.slotIds.length < b.slotIds.length := by omega
    have hloc := (h.inv.location_of_slot (List.getElem?_eq_getElem hslot)).2
    rw [hlocations] at hloc
    have hlive : a.slotIds.length ≠ DEAD := by
      have := h.inv.values_len
      have := h.inv.slots_len
      omega
    have := ha.lt_of_location hloc hlive
    have := ha.slots_len
    omega
  have hvalues : b.values.length ≤ a.values.length := by
    rw [← h.inv.slots_len, ← ha.slots_len]
    exact hlen
  have hv := h.values.eq_of_length_le hvalues
  have hs := h.slotIds.eq_of_length_le hlen
  rcases a with ⟨values, slotIds, locations⟩
  rcases b with ⟨values', slotIds', locations'⟩
  cases hv
  cases hs
  cases hlocations
  rfl

/-- `truncate_issued` at the snapshot gives the snapshot back. -/
theorem truncateIssued (h : Extends a b) (ha : a.Inv) :
    (StableArena.truncateIssued a.issuedLen).run b = (.ok (), a) := by
  obtain ⟨s, hrun, hs, hlen⟩ := Method.forEach_induction StableArena.removeIfLive
    (fun _ (s : StableArena Id T) => Extends a s ∧ s.locations.length = b.locations.length)
    (newestFirst a.issuedLen b.locations.length) ⟨h, rfl⟩ (by
      rintro done raw rest s hsplit ⟨hs, hlen⟩
      obtain ⟨hge, hlt⟩ := mem_newestFirst.1
        (show raw ∈ newestFirst a.issuedLen b.locations.length by simp [hsplit])
      rw [← hlen] at hlt
      obtain ⟨s', hrun, -, -, hlen'⟩ := hs.inv.removeIfLive_spec hlt
      have hs' := hs.removeIfLive ha hge hlt
      rw [hrun] at hs'
      exact ⟨s', hrun, hs', hlen'.trans hlen⟩)
  have hlocations : s.locations.take a.issuedLen = a.locations :=
    (List.prefix_iff_eq_take.1 hs.locations).symm
  have htruncate : (StableArena.truncateIssued a.issuedLen).run b =
      (.ok (), { s with locations := s.locations.take a.issuedLen }) := by
    rw [StableArena.truncateIssued, Method.run_bind_get, Method.run_bind_of_ok hrun]
    rfl
  obtain ⟨c, hrun', hc, -⟩ := h.inv.truncateIssued_spec a.issuedLen
  rw [htruncate] at hrun'
  obtain rfl := (Prod.mk.injEq _ _ _ _ ▸ hrun').2
  have hextends : Extends a { s with locations := s.locations.take a.issuedLen } :=
    ⟨hc, hs.values, hs.slotIds, by rw [hlocations]⟩
  rw [htruncate, hextends.eq_of_locations ha hlocations]

end Extends

/-! ## Runs between a snapshot and its rollback -/

/-- A push, or the removal of an id issued at or after the index `k`. -/
def Op.After (k : Nat) : Op Id T → Prop
  | .push _ => True
  | .remove id => k ≤ intoUsize id
  | _ => False

theorem Extends.step {a b : StableArena Id T} (h : Extends a b) (ha : a.Inv) {op : Op Id T}
    (hop : op.After a.issuedLen) : Extends a (StableArena.step op b).2 := by
  cases op with
  | push value =>
      simp only [StableArena.step, Method.run_map]
      exact h.push value
  | remove id =>
      simp only [StableArena.step, Method.run_map]
      exact h.remove ha hop
  | getMut id write => exact hop.elim
  | indexMut id write => exact hop.elim
  | clear => exact hop.elim
  | truncateIssued issued => exact hop.elim
  | shrinkToFit => exact hop.elim

theorem Extends.run {a : StableArena Id T} (ha : a.Inv) (ops : List (Op Id T)) :
    ∀ {b : StableArena Id T}, Extends a b → (∀ op ∈ ops, op.After a.issuedLen) →
      Extends a (runOps StableArena.step ops b).2 := by
  induction ops with
  | nil => exact fun h _ => h
  | cons op ops ih =>
      intro b h hops
      rw [runOps_cons]
      refine ih (h.step ha (hops op List.mem_cons_self)) ?_
      intro op' hop'
      exact hops op' (List.mem_cons_of_mem _ hop')

/-- After pushes and removals of the ids they issued, `truncate_issued` gives back the arena they
started from, whether its operations or the decoder made it. -/
theorem truncateIssued_rollback (Id T : Type) :
    (∀ [Identifier Id] (before ops : List (Op Id T)),
      let a := (runOps step before (empty : StableArena Id T)).2
      (∀ op ∈ ops, op.After a.issuedLen) →
        (truncateIssued a.issuedLen).run (runOps step ops a).2 = (.ok (), a)) ∧
    ∀ [LightWrapper Id] (a : StableArena Id T), Reachable a →
      ∀ ops : List (Op Id T), (∀ op ∈ ops, op.After a.issuedLen) →
        (truncateIssued a.issuedLen).run (runOps step ops a).2 = (.ok (), a) := by
  constructor
  · intro _ before ops a hops
    have ha : a.Inv := run_invariant (fun op _ h => (h.step_spec op).2.1) before _ empty_inv
    exact (Extends.run ha ops ha.extends_self hops).truncateIssued ha
  · intro _ a hreach ops hops
    have ha := hreach.inv
    exact (Extends.run ha ops ha.extends_self hops).truncateIssued ha

/-- An arena with a hole; the batch pushes three payloads and removes the first two of them, so that
the last one moves down. -/
theorem truncateIssued_rollback_hole :
    let a : StableArena (DerivedId .u32) Nat :=
      (runOps step [.push 7, .push 8, .remove ⟨0, by decide⟩] empty).2
    (truncateIssued a.issuedLen).run (runOps step [.push 9, .push 10, .push 11,
        .remove ⟨2, by decide⟩, .remove ⟨3, by decide⟩] a).2 = (.ok (), a) ∧
      a = { values := [8], slotIds := [⟨1, by decide⟩], locations := [DEAD, 0] } := by
  intro a
  refine ⟨(truncateIssued_rollback (DerivedId .u32) Nat).1
    [.push 7, .push 8, .remove ⟨0, by decide⟩] _ ?_, by decide⟩
  simp only [List.mem_cons, List.not_mem_nil, or_false, forall_eq_or_imp, forall_eq, Op.After,
    true_and]
  decide

end StableArena
end Jstd
