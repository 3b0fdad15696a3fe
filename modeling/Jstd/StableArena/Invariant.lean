import Jstd.Foundation.OptionList
import Jstd.StableArena.Basic

/-!
# The representation invariant of StableArena

`Inv` says that `slotIds` and the locations other than `DEAD` are mutually inverse.  Every
operation is given one lemma: on an arena that satisfies `Inv` it returns what it should, it leaves
`Inv` behind, and it acts on the abstract contents `abs` (one optional value for every issued
index) as the operation of the same name acts on a list.
-/

namespace Jstd
namespace StableArena

open Foundation

variable {Id T : Type} [Identifier Id]

/-- `slotIds` and the live locations are mutually inverse. -/
structure Inv (a : StableArena Id T) : Prop where
  slots_len : a.slotIds.length = a.values.length
  values_len : a.values.length ≤ DEAD
  issued_len : a.locations.length ≤ DEAD
  roundTrips : ∀ {raw : Nat}, raw < a.locations.length → RoundTrips Id raw
  location_of_slot : ∀ {slot : Nat} {id : Id}, a.slotIds[slot]? = some id →
    fromUsize (intoUsize id) = id ∧ a.locations[intoUsize id]? = some slot
  slot_of_location : ∀ {raw slot : Nat}, a.locations[raw]? = some slot → slot ≠ DEAD →
    a.slotIds[slot]? = some (fromUsize raw)

/-- What the arena stands for: the payload of every issued index, if it is still live. -/
def abs (a : StableArena Id T) : List (Option T) :=
  a.locations.map fun slot => a.values[slot]?

omit [Identifier Id] in
@[simp] theorem abs_length (a : StableArena Id T) : a.abs.length = a.locations.length := by
  simp [abs]

omit [Identifier Id] in
theorem abs_getElem? (a : StableArena Id T) (raw : Nat) :
    a.abs[raw]? = a.locations[raw]?.map fun slot => a.values[slot]? := by
  simp [abs]

/-! ## Slots -/

theorem liveSlot_eq_some {a : StableArena Id T} {id : Id} {slot : Nat} :
    a.liveSlot id = some slot ↔ a.locations[intoUsize id]? = some slot ∧ slot ≠ DEAD := by
  unfold liveSlot
  cases h : a.locations[intoUsize id]? with
  | none => simp
  | some s =>
      by_cases hs : s = DEAD
      · simp only [ne_eq, hs, not_true_eq_false, if_false, reduceCtorEq, false_iff]
        rintro ⟨heq, hne⟩
        exact hne (Option.some.inj heq).symm
      · simp only [ne_eq, hs, not_false_eq_true, if_true, Option.some.injEq]
        constructor
        · rintro rfl
          exact ⟨rfl, hs⟩
        · exact And.left

theorem Inv.values_dead {a : StableArena Id T} (hI : a.Inv) : a.values[DEAD]? = none := by
  exact List.getElem?_eq_none hI.values_len

/-- A live slot holds a payload. -/
theorem Inv.lt_of_location {a : StableArena Id T} (hI : a.Inv) {raw slot : Nat}
    (hloc : a.locations[raw]? = some slot) (hlive : slot ≠ DEAD) : slot < a.values.length := by
  have hid := hI.slot_of_location hloc hlive
  have hlt := (List.getElem?_eq_some_iff.1 hid).1
  rwa [hI.slots_len] at hlt

/-- Two live indices never share a slot. -/
theorem Inv.location_inj {a : StableArena Id T} (hI : a.Inv) {i j slot : Nat}
    (hi : a.locations[i]? = some slot) (hj : a.locations[j]? = some slot) (hlive : slot ≠ DEAD) :
    i = j := by
  have hidi := hI.slot_of_location hi hlive
  have hidj := hI.slot_of_location hj hlive
  have hfrom : (fromUsize i : Id) = fromUsize j := Option.some.inj (hidi.symm.trans hidj)
  have hri : RoundTrips Id i := hI.roundTrips (List.getElem?_eq_some_iff.1 hi).1
  have hrj : RoundTrips Id j := hI.roundTrips (List.getElem?_eq_some_iff.1 hj).1
  calc
    i = intoUsize (fromUsize i : Id) := hri.symm
    _ = intoUsize (fromUsize j : Id) := by rw [hfrom]
    _ = j := hrj

/-- The lookup of an identifier is the lookup of its index in the abstract contents. -/
theorem Inv.abs_eq_some {a : StableArena Id T} (hI : a.Inv) {raw : Nat} {v : T} :
    a.abs[raw]? = some (some v) ↔
      ∃ slot, a.locations[raw]? = some slot ∧ slot ≠ DEAD ∧ a.values[slot]? = some v := by
  rw [abs_getElem?]
  constructor
  · intro h
    obtain ⟨slot, hloc, hval⟩ := Option.map_eq_some_iff.1 h
    refine ⟨slot, hloc, ?_, hval⟩
    rintro rfl
    rw [hI.values_dead] at hval
    cases hval
  · rintro ⟨slot, hloc, -, hval⟩
    simp [hloc, hval]

theorem Inv.liveSlot_eq_none {a : StableArena Id T} (hI : a.Inv) {id : Id} :
    a.liveSlot id = none ↔ (a.abs[intoUsize id]?).join = none := by
  rw [abs_getElem?]
  cases hloc : a.locations[intoUsize id]? with
  | none => simp [liveSlot, hloc]
  | some slot =>
      by_cases hlive : slot = DEAD
      · subst hlive
        simp [liveSlot, hloc, hI.values_dead]
      · have hlt := hI.lt_of_location hloc hlive
        simp [liveSlot, hloc, hlive, List.getElem?_eq_getElem hlt]

/-- A live identifier's slot and payload. -/
theorem Inv.liveSlot_of_abs {a : StableArena Id T} (hI : a.Inv) {id : Id} {v : T}
    (h : (a.abs[intoUsize id]?).join = some v) :
    ∃ slot, a.liveSlot id = some slot ∧ a.values[slot]? = some v := by
  have hsome : a.abs[intoUsize id]? = some (some v) := Option.join_eq_some_iff.1 h
  obtain ⟨slot, hloc, hlive, hval⟩ := hI.abs_eq_some.1 hsome
  exact ⟨slot, liveSlot_eq_some.2 ⟨hloc, hlive⟩, hval⟩

/-! ## Reading -/

theorem Inv.contains_eq {a : StableArena Id T} (hI : a.Inv) (id : Id) :
    a.contains id = ((a.abs[intoUsize id]?).join).isSome := by
  unfold contains
  cases h : (a.abs[intoUsize id]?).join with
  | none => simp [hI.liveSlot_eq_none.2 h]
  | some v =>
      obtain ⟨slot, hslot, -⟩ := hI.liveSlot_of_abs h
      simp [hslot]

theorem Inv.get_eq {a : StableArena Id T} (hI : a.Inv) (id : Id) :
    a.get id = .ok ((a.abs[intoUsize id]?).join.map (Identified.mk id)) := by
  unfold get
  cases h : (a.abs[intoUsize id]?).join with
  | none => simp [hI.liveSlot_eq_none.2 h]
  | some v =>
      obtain ⟨slot, hslot, hval⟩ := hI.liveSlot_of_abs h
      simp only [hslot, index_of_getElem? hval]
      rfl

theorem Inv.index_eq {a : StableArena Id T} (hI : a.Inv) (id : Id) :
    (a.index id).toOption = (a.abs[intoUsize id]?).join := by
  unfold StableArena.index
  rw [hI.get_eq id]
  cases h : (a.abs[intoUsize id]?).join with
  | none => rfl
  | some v => rfl

/-! ## Writing in place -/

/-- Overwriting the payload of a live slot changes one entry and nothing else. -/
theorem Inv.setValue {a : StableArena Id T} (hI : a.Inv) {raw slot : Nat}
    (hloc : a.locations[raw]? = some slot) (hlive : slot ≠ DEAD) (v : T) :
    Inv { a with values := a.values.set slot v } ∧
      StableArena.abs { a with values := a.values.set slot v } = a.abs.set raw (some v) := by
  have hlt := hI.lt_of_location hloc hlive
  refine ⟨?_, ?_⟩
  · exact
      { slots_len := by simpa using hI.slots_len
        values_len := by simpa using hI.values_len
        issued_len := hI.issued_len
        roundTrips := hI.roundTrips
        location_of_slot := hI.location_of_slot
        slot_of_location := hI.slot_of_location }
  · apply List.ext_getElem?
    intro i
    rw [List.getElem?_set, abs_getElem?, abs_getElem?, abs_length]
    by_cases hi : raw = i
    · subst hi
      have hraw := (List.getElem?_eq_some_iff.1 hloc).1
      rw [hloc]
      simp [hraw, hlt]
    -- No other id has this slot.
    · simp only [hi, if_false]
      cases hloci : a.locations[i]? with
      | none => rfl
      | some s =>
          have hs : slot ≠ s := by
            rintro rfl
            exact hi (hI.location_inj hloc hloci hlive)
          simp [List.getElem?_set, hs]

theorem Inv.getMut_spec {a : StableArena Id T} (hI : a.Inv) (id : Id) (write : T → T) :
    ∃ a', (getMut id write).run a =
        (.ok ((a.abs[intoUsize id]?).join.map (Identified.mk id)), a') ∧
      a'.Inv ∧ a'.abs = a.abs.modify (intoUsize id) (Option.map write) := by
  cases h : (a.abs[intoUsize id]?).join with
  | none =>
      have hslot := hI.liveSlot_eq_none.2 h
      refine ⟨a, ?_, hI, ?_⟩
      · rw [getMut, Method.run_bind_get, hslot]
        rfl
      · exact (modify_of_vacant write h).symm
  | some v =>
      obtain ⟨slot, hslot, hval⟩ := hI.liveSlot_of_abs h
      obtain ⟨hloc, hlive⟩ := liveSlot_eq_some.1 hslot
      have hlt := hI.lt_of_location hloc hlive
      obtain ⟨hI', habs⟩ := hI.setValue hloc hlive (write v)
      refine ⟨{ a with values := a.values.set slot (write v) }, ?_, hI', ?_⟩
      · rw [getMut, Method.run_bind_get, hslot]
        simp only [index_of_getElem? hval, setIndex_of_lt hlt]
        rfl
      · rw [habs, modify_of_occupied write (Option.join_eq_some_iff.1 h)]

/-! ## Insertion -/

/-- `push` on an index the arena can issue. -/
theorem Inv.push_spec {a : StableArena Id T} (hI : a.Inv) (value : T)
    (hdead : a.locations.length < DEAD) (hvals : a.values.length < DEAD)
    (hrt : RoundTrips Id a.locations.length) :
    (push value).run a = (.ok (fromUsize a.locations.length),
        a.append value (fromUsize a.locations.length) a.values.length) ∧
      (a.append value (fromUsize a.locations.length : Id) a.values.length).Inv ∧
      (a.append value (fromUsize a.locations.length : Id) a.values.length).abs =
        a.abs ++ [some value] := by
  refine ⟨?_, ?_, ?_⟩
  · -- The three checks pass, and the rest of the call is the append.
    rw [push, Method.run_bind_get,
      Method.run_bind_of_ok (Method.run_require_of_pos hdead _ a)]
    simp only
    rw [Method.run_bind_of_ok (Method.run_require_of_pos (show intoUsize _ = _ from hrt) _ a),
      Method.run_bind_of_ok (Method.run_require_of_pos hvals _ a)]
    rfl
  · exact
      { slots_len := by simp [append, hI.slots_len]
        values_len := by simpa [append] using Nat.succ_le_of_lt hvals
        issued_len := by simpa [append] using Nat.succ_le_of_lt hdead
        roundTrips := by
          intro raw hraw
          rcases Nat.lt_succ_iff_lt_or_eq.1 (by simpa [append] using hraw) with h | rfl
          · exact hI.roundTrips h
          · exact hrt
        location_of_slot := by
          intro slot id hid
          rw [append, List.getElem?_append] at hid
          split at hid
          · obtain ⟨hfrom, hloc⟩ := hI.location_of_slot hid
            have hlt := (List.getElem?_eq_some_iff.1 hloc).1
            exact ⟨hfrom, by simpa [append, List.getElem?_append, hlt] using hloc⟩
          · have hslot : slot = a.slotIds.length ∧ fromUsize a.locations.length = id := by
              have := List.getElem?_singleton.symm.trans hid
              split at this
              · exact ⟨by omega, Option.some.inj this⟩
              · cases this
            obtain ⟨rfl, rfl⟩ := hslot
            have hinto : intoUsize (fromUsize a.locations.length : Id) = a.locations.length := hrt
            refine ⟨by rw [hinto], ?_⟩
            simp [append, hinto, hI.slots_len]
        slot_of_location := by
          intro raw slot hloc hlive
          rw [append, List.getElem?_append] at hloc
          split at hloc
          · have hid := hI.slot_of_location hloc hlive
            have hlt := (List.getElem?_eq_some_iff.1 hid).1
            simpa [append, List.getElem?_append, hlt] using hid
          · have hraw : raw = a.locations.length ∧ a.values.length = slot := by
              have := List.getElem?_singleton.symm.trans hloc
              split at this
              · exact ⟨by omega, Option.some.inj this⟩
              · cases this
            obtain ⟨rfl, rfl⟩ := hraw
            simp [append, ← hI.slots_len] }
  · apply List.ext_getElem?
    intro i
    rw [abs_getElem?, List.getElem?_append, abs_length]
    by_cases hi : i < a.locations.length
    · obtain ⟨slot, hloc⟩ : ∃ slot, a.locations[i]? = some slot :=
        ⟨_, List.getElem?_eq_getElem hi⟩
      simp only [append, List.getElem?_append, hi, if_true, abs_getElem?, hloc, Option.map_some]
      -- A dead slot reads nothing before and after: `DEAD` is past the end of the values.
      by_cases hlive : slot = DEAD
      · subst hlive
        have : ¬ DEAD < a.values.length := Nat.not_lt.2 hI.values_len
        simp [this, List.getElem?_singleton]
        omega
      · simp [hI.lt_of_location hloc hlive]
    · simp only [append, List.getElem?_append, hi, if_false, List.getElem?_singleton]
      split <;> simp

/-- `push` on an index that cannot be issued fails and leaves the arena alone. -/
theorem push_exhausted (a : StableArena Id T) (value : T)
    (h : ¬ (a.locations.length < DEAD ∧ RoundTrips Id a.locations.length)) :
    ∃ e, (push value).run a = (.error e, a) := by
  rw [push, Method.run_bind_get]
  by_cases hdead : a.locations.length < DEAD
  · have hrt : ¬ RoundTrips Id a.locations.length := fun hrt => h ⟨hdead, hrt⟩
    rw [Method.run_bind_of_ok (Method.run_require_of_pos hdead _ a)]
    exact ⟨_, Method.run_bind_of_error (Method.run_require_of_neg hrt _ a) _⟩
  · exact ⟨_, Method.run_bind_of_error (Method.run_require_of_neg hdead _ a) _⟩

/-! ## Removal -/

/-- The list `swap_remove` leaves behind. -/
def swapRest {α : Type} (xs : List α) (i : Nat) : List α :=
  match xs.getLast? with
  | some last => (xs.set i last).dropLast
  | none => []

theorem swapRemove_of_getElem? {α : Type} {xs : List α} {i : Nat} {x : α}
    (h : xs[i]? = some x) : swapRemove xs i = .ok (x, swapRest xs i) := by
  have hlt := (List.getElem?_eq_some_iff.1 h).1
  have hne : xs ≠ [] := by
    rintro rfl
    simp at hlt
  simp [swapRemove, swapRest, h, List.getLast?_eq_some_getLast hne]

@[simp] theorem swapRest_length {α : Type} (xs : List α) (i : Nat) :
    (swapRest xs i).length = xs.length - 1 := by
  unfold swapRest
  cases h : xs.getLast? with
  | none => simp [List.getLast?_eq_none_iff.1 h]
  | some last => simp

/-- Slot `i` now holds the last element; the other surviving slots are untouched. -/
theorem swapRest_getElem? {α : Type} (xs : List α) (i j : Nat) (hi : i < xs.length) :
    (swapRest xs i)[j]? =
      if j < xs.length - 1 then (if j = i then xs[xs.length - 1]? else xs[j]?) else none := by
  have hne : xs ≠ [] := by
    rintro rfl
    simp at hi
  have hlast : xs.getLast? = xs[xs.length - 1]? := List.getLast?_eq_getElem?
  unfold swapRest
  cases h : xs.getLast? with
  | none => exact absurd (List.getLast?_eq_none_iff.1 h) hne
  | some last =>
      simp only [List.getElem?_dropLast, List.length_set, List.getElem?_set]
      by_cases hj : j < xs.length - 1
      · by_cases hji : j = i
        · subst hji
          simp [hj, hi, ← hlast, h]
        · have hij : ¬ i = j := fun hij => hji hij.symm
          simp [hj, hji, hij]
      · simp [hj]

/-- The arena after the payload at `slot`, owned by the index `raw`, has been taken out. -/
def removed (a : StableArena Id T) (raw slot : Nat) : StableArena Id T :=
  { values := swapRest a.values slot
    slotIds := swapRest a.slotIds slot
    locations :=
      match a.slotIds[a.slotIds.length - 1]? with
      | some movedId =>
          if slot < a.values.length - 1 then
            (a.locations.set raw DEAD).set (intoUsize movedId) slot
          else a.locations.set raw DEAD
      | none => a.locations.set raw DEAD }

/-- The last slot's identifier, as the proofs below need it. -/
theorem Inv.exists_moved {a : StableArena Id T} (hI : a.Inv) {slot : Nat}
    (hslot : slot < a.values.length) :
    ∃ movedId, a.slotIds[a.slotIds.length - 1]? = some movedId ∧
      fromUsize (intoUsize movedId) = movedId ∧
      a.locations[intoUsize movedId]? = some (a.values.length - 1) := by
  have hlt : a.slotIds.length - 1 < a.slotIds.length := by
    have := hI.slots_len
    omega
  have hid := List.getElem?_eq_getElem hlt
  obtain ⟨hfrom, hloc⟩ := hI.location_of_slot hid
  exact ⟨_, hid, hfrom, by simpa [hI.slots_len] using hloc⟩

/-- The repaired location table: the removed index is dead, the moved entry follows its payload. -/
theorem Inv.removed_locations {a : StableArena Id T} (hI : a.Inv) {raw slot : Nat}
    (hloc : a.locations[raw]? = some slot) (hlive : slot ≠ DEAD) (i : Nat) :
    (a.removed raw slot).locations[i]? =
      if i = raw then some DEAD
      else if slot < a.values.length - 1 ∧ a.locations[i]? = some (a.values.length - 1) then
        some slot
      else a.locations[i]? := by
  have hslot := hI.lt_of_location hloc hlive
  have hraw := (List.getElem?_eq_some_iff.1 hloc).1
  obtain ⟨movedId, hid, -, hmoved⟩ := hI.exists_moved hslot
  have hlast : a.values.length - 1 ≠ DEAD := by
    have := hI.values_len
    omega
  have hmlt := (List.getElem?_eq_some_iff.1 hmoved).1
  simp only [removed, hid]
  -- Unless the slot is the last one, the last value moves into it.
  by_cases hmove : slot < a.values.length - 1
  · have hne : intoUsize movedId ≠ raw := by
      intro heq
      rw [heq, hloc] at hmoved
      have := Option.some.inj hmoved
      omega
    simp only [hmove, if_true, true_and, List.getElem?_set, List.length_set, hmlt, hraw]
    by_cases hi : i = raw
    · subst hi
      simp [hne]
    · have hri : ¬ raw = i := fun h => hi h.symm
      simp only [hi, hri, if_false]
      by_cases him : intoUsize movedId = i
      · subst him
        simp [hmoved]
      · have hnl : ¬ a.locations[i]? = some (a.values.length - 1) := by
          intro h
          exact him (hI.location_inj hmoved h hlast)
        simp [him, hnl]
  · simp only [hmove, if_false, false_and, List.getElem?_set, hraw]
    by_cases hi : i = raw
    · subst hi
      simp
    · have hri : ¬ raw = i := fun h => hi h.symm
      simp [hi, hri]

/-- An identifier that is neither removed nor moved has a slot that is neither vacated nor last. -/
theorem Inv.kept_slot {a : StableArena Id T} (hI : a.Inv) {raw slot i s : Nat}
    (hloc : a.locations[raw]? = some slot) (hlive : slot ≠ DEAD) (hs : a.locations[i]? = some s)
    (hsl : s ≠ DEAD) (hi : ¬ i = raw)
    (hmove : ¬ (slot < a.values.length - 1 ∧ a.locations[i]? = some (a.values.length - 1))) :
    s ≠ slot ∧ s < a.values.length - 1 := by
  have hslot := hI.lt_of_location hloc hlive
  have hslt := hI.lt_of_location hs hsl
  have hne : s ≠ slot := by
    rintro rfl
    exact hi (hI.location_inj hs hloc hsl)
  refine ⟨hne, ?_⟩
  by_contra hge
  have hseq : s = a.values.length - 1 := by omega
  subst hseq
  exact hmove ⟨by omega, hs⟩

theorem Inv.removed_inv {a : StableArena Id T} (hI : a.Inv) {raw slot : Nat}
    (hloc : a.locations[raw]? = some slot) (hlive : slot ≠ DEAD) : (a.removed raw slot).Inv := by
  have hslot := hI.lt_of_location hloc hlive
  have hslotId : slot < a.slotIds.length := by rw [hI.slots_len]; exact hslot
  have hrawId := hI.slot_of_location hloc hlive
  have hlength : (a.removed raw slot).locations.length = a.locations.length := by
    simp only [removed]
    split
    · split <;> simp
    · simp
  exact
    { slots_len := by simp [removed, hI.slots_len]
      values_len := by
        have := hI.values_len
        simp only [removed, swapRest_length]
        omega
      issued_len := by
        rw [hlength]
        exact hI.issued_len
      roundTrips := by
        intro i hi
        rw [hlength] at hi
        exact hI.roundTrips hi
      location_of_slot := by
        intro j id hid
        simp only [removed, swapRest_getElem? a.slotIds slot j hslotId] at hid
        rw [hI.removed_locations hloc hlive]
        -- Below the last slot the ids are as before, but for the one that moved.
        split at hid
        · rename_i hj
          rw [hI.slots_len] at hj
          split at hid
          · -- The slot the last entry moved into.
            rename_i hjs
            obtain ⟨hfrom, hidloc⟩ := hI.location_of_slot hid
            rw [hI.slots_len] at hidloc
            have hne : intoUsize id ≠ raw := by
              intro heq
              rw [heq, hloc] at hidloc
              have := Option.some.inj hidloc
              omega
            refine ⟨hfrom, ?_⟩
            have hmove : slot < a.values.length - 1 := by omega
            simp [hne, hidloc, hmove, hjs]
          · rename_i hjs
            obtain ⟨hfrom, hidloc⟩ := hI.location_of_slot hid
            have hne : intoUsize id ≠ raw := by
              intro heq
              rw [heq, hloc] at hidloc
              exact hjs (Option.some.inj hidloc).symm
            refine ⟨hfrom, ?_⟩
            have hnl : j ≠ a.values.length - 1 := by omega
            simp [hne, hidloc, hnl]
        · cases hid
      slot_of_location := by
        intro i s hs hsl
        rw [hI.removed_locations hloc hlive] at hs
        simp only [removed, swapRest_getElem? a.slotIds slot _ hslotId]
        split at hs
        · exact absurd (Option.some.inj hs).symm hsl
        · rename_i hi
          split at hs
          · rename_i hmove
            obtain rfl := Option.some.inj hs
            have hlast : a.values.length - 1 ≠ DEAD := by
              have := hI.values_len
              omega
            have hid := hI.slot_of_location hmove.2 hlast
            rw [hI.slots_len]
            simpa [hmove.1] using hid
          · rename_i hmove
            have hid := hI.slot_of_location hs hsl
            obtain ⟨hne, hsl'⟩ := hI.kept_slot hloc hlive hs hsl hi hmove
            rw [hI.slots_len]
            simpa [hsl', hne] using hid }

theorem Inv.removed_abs {a : StableArena Id T} (hI : a.Inv) {raw slot : Nat}
    (hloc : a.locations[raw]? = some slot) (hlive : slot ≠ DEAD) :
    (a.removed raw slot).abs = a.abs.set raw none := by
  have hslot := hI.lt_of_location hloc hlive
  have hraw := (List.getElem?_eq_some_iff.1 hloc).1
  have hdead := (hI.removed_inv hloc hlive).values_dead
  apply List.ext_getElem?
  intro i
  rw [abs_getElem?, hI.removed_locations hloc hlive, List.getElem?_set, abs_length, abs_getElem?]
  by_cases hi : i = raw
  · subst hi
    simp [hraw, hdead]
  · have hri : ¬ raw = i := fun h => hi h.symm
    simp only [hi, hri, if_false]
    -- The last entry has moved into the slot that became free.
    by_cases hmove : slot < a.values.length - 1 ∧ a.locations[i]? = some (a.values.length - 1)
    · have hval := swapRest_getElem? a.values slot slot hslot
      simp only [hmove.1, if_true] at hval
      rw [if_pos hmove, hmove.2, Option.map_some, Option.map_some]
      exact congrArg some hval
    · rw [if_neg hmove]
      cases hs : a.locations[i]? with
      | none => rfl
      | some s =>
          rw [Option.map_some, Option.map_some]
          congr 1
          by_cases hsl : s = DEAD
          · subst hsl
            rw [hdead, hI.values_dead]
          · obtain ⟨hne, hsl'⟩ := hI.kept_slot hloc hlive hs hsl hi hmove
            have hval := swapRest_getElem? a.values slot s hslot
            simpa [removed, hsl', hne] using hval

/-- `remove` on a live identifier returns its payload and leaves the repaired arena. -/
theorem Inv.remove_run {a : StableArena Id T} (hI : a.Inv) {id : Id} {slot : Nat} {v : T}
    (hslot : a.liveSlot id = some slot) (hval : a.values[slot]? = some v) :
    (remove id).run a = (.ok v, a.removed (intoUsize id) slot) := by
  obtain ⟨hloc, hlive⟩ := liveSlot_eq_some.1 hslot
  have hlt := hI.lt_of_location hloc hlive
  have hraw := (List.getElem?_eq_some_iff.1 hloc).1
  have hslotId := hI.slot_of_location hloc hlive
  obtain ⟨movedId, hmovedId, -, hmoved⟩ := hI.exists_moved hlt
  have hmlt := (List.getElem?_eq_some_iff.1 hmoved).1
  have hmoved' : slot < a.values.length - 1 → (swapRest a.slotIds slot)[slot]? = some movedId := by
    intro hmove
    have hsl : slot < a.slotIds.length := by rw [hI.slots_len]; exact hlt
    rw [swapRest_getElem? a.slotIds slot slot hsl, hI.slots_len]
    simpa [hmove, hI.slots_len] using hmovedId
  rw [remove, Method.run_bind_get, hslot]
  simp only [setIndex_of_lt hraw, swapRemove_of_getElem? hval, swapRemove_of_getElem? hslotId,
    Method.run_bind_liftM_ok, Method.run_bind_modify, swapRest_length]
  -- Unless the last entry itself is removed, its location is repaired.
  by_cases hmove : slot < a.values.length - 1
  · have hset : setIndex (a.locations.set (intoUsize id) DEAD) (intoUsize movedId) slot =
        .ok ((a.locations.set (intoUsize id) DEAD).set (intoUsize movedId) slot) :=
      setIndex_of_lt (by simpa using hmlt) slot
    simp only [hmove, if_true, index_of_getElem? (hmoved' hmove), Method.run_bind_liftM_ok, hset,
      removed, hmovedId]
    rfl
  · simp only [hmove, if_false, removed, hmovedId]
    rfl

theorem Inv.remove_spec {a : StableArena Id T} (hI : a.Inv) {id : Id} {v : T}
    (h : (a.abs[intoUsize id]?).join = some v) :
    ∃ a', (remove id).run a = (.ok v, a') ∧ a'.Inv ∧ a'.abs = a.abs.set (intoUsize id) none ∧
      a'.locations.length = a.locations.length := by
  obtain ⟨slot, hslot, hval⟩ := hI.liveSlot_of_abs h
  obtain ⟨hloc, hlive⟩ := liveSlot_eq_some.1 hslot
  have habs := hI.removed_abs hloc hlive
  refine ⟨_, hI.remove_run hslot hval, hI.removed_inv hloc hlive, habs, ?_⟩
  have := congrArg List.length habs
  simpa using this

/-- `remove` on anything else fails before it touches a field. -/
theorem Inv.remove_dead {a : StableArena Id T} (hI : a.Inv) {id : Id}
    (h : (a.abs[intoUsize id]?).join = none) : ∃ e, (remove id).run a = (.error e, a) := by
  have hslot := hI.liveSlot_eq_none.2 h
  rw [remove, Method.run_bind_get, hslot]
  exact ⟨_, rfl⟩

end StableArena
end Jstd
