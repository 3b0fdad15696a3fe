import Jstd.Foundation.OptionList
import Jstd.Foundation.Simulation
import Jstd.StableArena.Invariant

/-!
# StableArena refines a list of optional values

The abstract arena is a list with one optional value for every issued index.  `specStep` says what
each operation does to it, `Observes` what the reading operations must report about it, and
`run_refines_list` that every run of the real arena from the empty one answers as the list does.
-/

namespace Jstd
namespace StableArena

open Foundation

variable {Id T : Type} [Identifier Id]

/-! ## Operations and their meaning on a list -/

/-- The mutating operations of the arena. -/
inductive Op (Id T : Type)
  | push (value : T)
  | remove (id : Id)
  | getMut (id : Id) (write : T → T)
  | indexMut (id : Id) (write : T → T)
  | clear
  | truncateIssued (issued : Nat)
  | shrinkToFit

/-- What an operation returns. -/
inductive Out (Id T : Type)
  | id (id : Id)
  | payload (value : T)
  | entry (entry : Option (Identified Id T))
  | unit

/-- One operation of the real arena; a panic leaves some arena behind as well. -/
def step (op : Op Id T) (a : StableArena Id T) : Except Panic (Out Id T) × StableArena Id T :=
  match op with
  | .push value => (Out.id <$> push value).run a
  | .remove id => (Out.payload <$> remove id).run a
  | .getMut id write => (Out.entry <$> getMut id write).run a
  | .indexMut id write => (Out.payload <$> indexMut id write).run a
  | .clear => ((fun _ => Out.unit) <$> clear).run a
  | .truncateIssued issued => ((fun _ => Out.unit) <$> truncateIssued issued).run a
  | .shrinkToFit => ((fun _ => Out.unit) <$> shrinkToFit).run a

/-- The same operation on the list; `none` is a panic, which changes nothing.  `push` panics when
the next index cannot be issued: the location sentinel is reached, or the identifier type does not
round-trip on it. -/
def specStep (op : Op Id T) (M : List (Option T)) : Option (Out Id T) × List (Option T) :=
  match op with
  | .push value =>
      if M.length < DEAD ∧ RoundTrips Id M.length then
        (some (.id (fromUsize M.length)), M ++ [some value])
      else (none, M)
  | .remove id =>
      match M[intoUsize id]?.join with
      | some value => (some (.payload value), M.set (intoUsize id) none)
      | none => (none, M)
  | .getMut id write =>
      (some (.entry (M[intoUsize id]?.join.map (Identified.mk id))),
        M.modify (intoUsize id) (Option.map write))
  | .indexMut id write =>
      match M[intoUsize id]?.join with
      | some value => (some (.payload value), M.modify (intoUsize id) (Option.map write))
      | none => (none, M)
  | .clear => (some .unit, [])
  | .truncateIssued issued => (some .unit, M.take issued)
  | .shrinkToFit => (some .unit, M)

/-! ## Iteration -/

omit [Identifier Id] in
theorem mem_iter {a : StableArena Id T} {id : Id} {v : T} :
    ⟨id, v⟩ ∈ a.iter ↔
      ∃ slot : Nat, a.slotIds[slot]? = some id ∧ a.values[slot]? = some v := by
  simp only [iter, List.mem_iff_getElem?, List.getElem?_zipWith]
  constructor
  · rintro ⟨slot, hslot⟩
    cases hid : a.slotIds[slot]? with
    | none => simp [hid] at hslot
    | some id' =>
        cases hval : a.values[slot]? with
        | none => simp [hid, hval] at hslot
        | some v' =>
            simp only [hid, hval, Option.some.injEq, Identified.mk.injEq] at hslot
            exact ⟨slot, by rw [hid, hslot.1], by rw [hval, hslot.2]⟩
  · rintro ⟨slot, hid, hval⟩
    exact ⟨slot, by simp [hid, hval]⟩

theorem Inv.slotIds_nodup {a : StableArena Id T} (hI : a.Inv) : a.slotIds.Nodup := by
  rw [List.nodup_iff_getElem?_ne_getElem?]
  intro i j hij hj heq
  have hid : a.slotIds[j]? = some a.slotIds[j] := List.getElem?_eq_getElem hj
  have hi := (hI.location_of_slot (heq.trans hid)).2
  have hj := (hI.location_of_slot hid).2
  have : i = j := Option.some.inj (hi.symm.trans hj)
  omega

theorem Inv.iter_map_id {a : StableArena Id T} (hI : a.Inv) :
    a.iter.map Identified.id = a.slotIds := by
  apply List.ext_getElem?
  intro i
  simp only [iter, List.getElem?_map, List.getElem?_zipWith]
  cases hid : a.slotIds[i]? with
  | none => rfl
  | some id =>
      have hlt := (List.getElem?_eq_some_iff.1 hid).1
      rw [hI.slots_len] at hlt
      simp [List.getElem?_eq_getElem hlt]

theorem Inv.mem_iter_iff {a : StableArena Id T} (hI : a.Inv) {e : Identified Id T} :
    e ∈ a.iter ↔ e ∈ (entries a.abs).map Identified.ofEntry := by
  rcases e with ⟨id, v⟩
  rw [mem_iter, List.mem_map]
  constructor
  · rintro ⟨slot, hid, hval⟩
    obtain ⟨hfrom, hloc⟩ := hI.location_of_slot hid
    have hlive : slot ≠ DEAD := by
      rintro rfl
      rw [hI.values_dead] at hval
      cases hval
    refine ⟨(intoUsize id, v), mem_entries.2 (hI.abs_eq_some.2 ⟨slot, hloc, hlive, hval⟩), ?_⟩
    simp [Identified.ofEntry, hfrom]
  · rintro ⟨⟨raw, w⟩, hmem, heq⟩
    cases heq
    obtain ⟨slot, hloc, hlive, hval⟩ := hI.abs_eq_some.1 (mem_entries.1 hmem)
    exact ⟨slot, hI.slot_of_location hloc hlive, hval⟩

/-- Iteration yields every live entry exactly once. -/
theorem Inv.iter_perm {a : StableArena Id T} (hI : a.Inv) :
    a.iter.Perm ((entries a.abs).map Identified.ofEntry) := by
  have hiter : a.iter.Nodup := by
    apply List.Nodup.of_map Identified.id
    rw [hI.iter_map_id]
    exact hI.slotIds_nodup
  have hentries : ((entries a.abs).map Identified.ofEntry : List (Identified Id T)).Nodup := by
    apply List.Nodup.of_map fun e => intoUsize e.id
    have hraw : ((entries a.abs).map Identified.ofEntry : List (Identified Id T)).map
        (fun e => intoUsize e.id) = (entries a.abs).map Prod.fst := by
      rw [List.map_map]
      apply List.map_congr_left
      rintro ⟨raw, v⟩ hmem
      have hlt := (List.getElem?_eq_some_iff.1 (mem_entries.1 hmem)).1
      exact hI.roundTrips (by simpa using hlt)
    rw [hraw]
    exact ((entries_pairwise a.abs).map Prod.fst fun _ _ h => h).imp Nat.ne_of_lt
  exact (List.perm_ext_iff_of_nodup hiter hentries).2 fun _ => hI.mem_iter_iff

theorem Inv.len_eq {a : StableArena Id T} (hI : a.Inv) :
    a.len = a.abs.countP Option.isSome := by
  have hperm := hI.iter_perm.length_eq
  have hiter : a.iter.length = a.values.length := by simp [iter, hI.slots_len]
  rw [List.length_map, entries_length, hiter] at hperm
  exact hperm

theorem Inv.isEmpty_iff {a : StableArena Id T} (hI : a.Inv) :
    a.isEmpty = true ↔ ∀ entry ∈ a.abs, entry = none := by
  calc a.isEmpty = true
    _ ↔ a.len = 0 := by rw [isEmpty, List.isEmpty_iff, len, List.length_eq_zero_iff]
    _ ↔ ∀ entry ∈ a.abs, entry = none := by rw [hI.len_eq, countP_eq_zero]

theorem Inv.len_le_issued {a : StableArena Id T} (hI : a.Inv) :
    a.values.length ≤ a.locations.length := by
  have hlen : a.values.length = a.abs.countP Option.isSome := hI.len_eq
  have hle := List.countP_le_length (p := Option.isSome) (l := a.abs)
  rw [abs_length] at hle
  omega

/-! ## The removal loop of `truncate_issued` -/

theorem Inv.removeIfLive_spec {a : StableArena Id T} (hI : a.Inv) {raw : Nat}
    (hraw : raw < a.locations.length) :
    ∃ a', (removeIfLive raw).run a = (.ok (), a') ∧ a'.Inv ∧ a'.abs = a.abs.set raw none ∧
      a'.locations.length = a.locations.length := by
  have hrt : intoUsize (fromUsize raw : Id) = raw := hI.roundTrips hraw
  have hcontains := hI.contains_eq (fromUsize raw)
  rw [hrt] at hcontains
  rw [removeIfLive, Method.run_bind_get]
  cases h : (a.abs[raw]?).join with
  | none =>
      rw [h] at hcontains
      exact ⟨a, by simp [hcontains], hI, (set_none_of_vacant h).symm, rfl⟩
  | some v =>
      rw [h] at hcontains
      obtain ⟨a', hrun, hI', habs, hlen⟩ :=
        hI.remove_spec (show (a.abs[intoUsize (fromUsize raw : Id)]?).join = some v by
          rw [hrt]
          exact h)
      rw [hrt] at habs
      refine ⟨a', ?_, hI', habs, hlen⟩
      simp only [hcontains, Option.isSome_some, if_true]
      rw [Method.run_bind_of_ok hrun]
      rfl

theorem mem_newestFirst {issued len raw : Nat} :
    raw ∈ newestFirst issued len ↔ issued ≤ raw ∧ raw < len := by
  simp only [newestFirst, List.mem_reverse, List.mem_range'_1]
  omega

/-- Every entry from `issued` on ends up dead; the others are untouched. -/
theorem Inv.removeLoop_spec {a : StableArena Id T} (hI : a.Inv) (issued : Nat) :
    ∃ a', (Method.forEach removeIfLive (newestFirst issued a.locations.length)).run a =
        (.ok (), a') ∧
      a'.Inv ∧ a'.locations.length = a.locations.length ∧
      ∀ i, a'.abs[i]? =
        if issued ≤ i ∧ i < a.locations.length then some none else a.abs[i]? := by
  obtain ⟨a', hrun, hI', hlen, habs⟩ :=
    Method.forEach_induction removeIfLive
      -- What the loop has done: the ids visited so far are dead.
      (fun done (s : StableArena Id T) =>
        s.Inv ∧ s.locations.length = a.locations.length ∧
          ∀ i, s.abs[i]? = if i ∈ done then some none else a.abs[i]?)
      (newestFirst issued a.locations.length) (s := a)
      ⟨hI, rfl, by simp⟩ (by
        rintro done raw rest s hxs ⟨hIs, hlen, habs⟩
        have hmem : raw ∈ newestFirst issued a.locations.length := by simp [hxs]
        have hraw : raw < s.locations.length := by
          rw [hlen]
          exact (mem_newestFirst.1 hmem).2
        obtain ⟨s', hrun, hI', habs', hlen'⟩ := hIs.removeIfLive_spec hraw
        refine ⟨s', hrun, hI', hlen'.trans hlen, ?_⟩
        intro i
        rw [habs', List.getElem?_set, habs i, abs_length]
        by_cases hi : raw = i
        · subst hi
          simp [hraw]
        · have hi' : ¬ i = raw := fun h => hi h.symm
          simp [hi, hi'])
  refine ⟨a', hrun, hI', hlen, ?_⟩
  intro i
  rw [habs i]
  simp only [mem_newestFirst]

theorem Inv.truncateIssued_spec {a : StableArena Id T} (hI : a.Inv) (issued : Nat) :
    ∃ a', (truncateIssued issued).run a = (.ok (), a') ∧ a'.Inv ∧
      a'.abs = a.abs.take issued := by
  obtain ⟨s, hrun, hIs, hlen, habs⟩ := hI.removeLoop_spec issued
  -- The loop has removed every value whose identifier is given up.
  have hbelow : ∀ {slot : Nat} {id : Id}, s.slotIds[slot]? = some id → intoUsize id < issued := by
    intro slot id hid
    obtain ⟨-, hloc⟩ := hIs.location_of_slot hid
    by_contra hge
    have hlt := (List.getElem?_eq_some_iff.1 hid).1
    rw [hIs.slots_len] at hlt
    have hidlt := (List.getElem?_eq_some_iff.1 hloc).1
    have hdead := habs (intoUsize id)
    rw [if_pos ⟨by omega, by omega⟩, abs_getElem?, hloc] at hdead
    simp [List.getElem?_eq_getElem hlt] at hdead
  refine ⟨{ s with locations := s.locations.take issued }, ?_, ?_, ?_⟩
  · rw [truncateIssued, Method.run_bind_get, Method.run_bind_of_ok hrun]
    rfl
  · exact
      { slots_len := hIs.slots_len
        values_len := hIs.values_len
        issued_len := by
          have := hIs.issued_len
          simp only [List.length_take]
          omega
        roundTrips := by
          intro raw hraw
          simp only [List.length_take] at hraw
          exact hIs.roundTrips (by omega)
        location_of_slot := by
          intro slot id hid
          obtain ⟨hfrom, hloc⟩ := hIs.location_of_slot hid
          exact ⟨hfrom, by rw [List.getElem?_take_of_lt (hbelow hid)]; exact hloc⟩
        slot_of_location := by
          intro raw slot hloc hlive
          rw [List.getElem?_take] at hloc
          split at hloc
          · exact hIs.slot_of_location hloc hlive
          · cases hloc }
  · apply List.ext_getElem?
    intro i
    rw [List.getElem?_take, abs_getElem?, List.getElem?_take]
    by_cases hi : i < issued
    · have hnot : ¬ (issued ≤ i ∧ i < a.locations.length) := by omega
      simp only [hi, if_true]
      have hsi := habs i
      rw [if_neg hnot, abs_getElem?] at hsi
      exact hsi
    · simp [hi]

/-! ## Runs -/

theorem empty_inv : (empty : StableArena Id T).Inv where
  slots_len := rfl
  values_len := Nat.zero_le _
  issued_len := Nat.zero_le _
  roundTrips := by
    intro raw hraw
    exact absurd hraw (Nat.not_lt_zero _)
  location_of_slot := by
    intro slot id hid
    simp [empty] at hid
  slot_of_location := by
    intro raw slot hloc
    simp [empty] at hloc

/-- One operation on a well-formed arena answers as the list does, keeps the invariant, and leaves
the arena as it was when it panics. -/
theorem Inv.step_spec {a : StableArena Id T} (hI : a.Inv) (op : Op Id T) :
    (step op a).1.toOption = (specStep op a.abs).1 ∧ (step op a).2.Inv ∧
      (step op a).2.abs = (specStep op a.abs).2 ∧
      ∀ e, (step op a).1 = .error e → (step op a).2 = a := by
  cases op with
  | push value =>
      simp only [step, specStep, Method.run_map, abs_length]
      by_cases h : a.locations.length < DEAD ∧ RoundTrips Id a.locations.length
      · have hvals : a.values.length < DEAD := by
          have := hI.len_le_issued
          omega
        obtain ⟨hrun, hI', habs⟩ := hI.push_spec value h.1 hvals h.2
        rw [hrun, if_pos h]
        exact ⟨rfl, hI', habs, by simp [Except.map]⟩
      · obtain ⟨e, hrun⟩ := push_exhausted a value h
        rw [hrun, if_neg h]
        exact ⟨rfl, hI, rfl, fun _ _ => rfl⟩
  | remove id =>
      simp only [step, specStep, Method.run_map]
      cases h : (a.abs[intoUsize id]?).join with
      | none =>
          obtain ⟨e, hrun⟩ := hI.remove_dead h
          rw [hrun]
          exact ⟨rfl, hI, rfl, fun _ _ => rfl⟩
      | some v =>
          obtain ⟨a', hrun, hI', habs, -⟩ := hI.remove_spec h
          rw [hrun]
          exact ⟨rfl, hI', habs, by simp [Except.map]⟩
  | getMut id write =>
      obtain ⟨a', hrun, hI', habs⟩ := hI.getMut_spec id write
      simp only [step, specStep, Method.run_map, hrun]
      exact ⟨rfl, hI', habs, by simp [Except.map]⟩
  | indexMut id write =>
      obtain ⟨a', hrun, hI', habs⟩ := hI.getMut_spec id write
      simp only [step, specStep, Method.run_map]
      cases h : (a.abs[intoUsize id]?).join with
      | none =>
          have hslot := hI.liveSlot_eq_none.2 h
          -- The identifier is dead: the lookup changes nothing before the panic.
          have hget : (getMut id write).run a = (.ok none, a) := by
            rw [getMut, Method.run_bind_get, hslot]
            rfl
          rw [indexMut, Method.run_bind_get, Method.run_bind_of_ok hget]
          exact ⟨rfl, hI, rfl, fun _ _ => rfl⟩
      | some v =>
          rw [h] at hrun
          rw [indexMut, Method.run_bind_get, Method.run_bind_of_ok hrun]
          refine ⟨rfl, hI', habs, ?_⟩
          intro e he
          cases he
  | clear =>
      exact ⟨rfl, empty_inv, rfl, by simp [step, Method.run_map, clear, Except.map]⟩
  | truncateIssued issued =>
      obtain ⟨a', hrun, hI', habs⟩ := hI.truncateIssued_spec issued
      simp only [step, specStep, Method.run_map, hrun]
      exact ⟨rfl, hI', habs, by simp [Except.map]⟩
  | shrinkToFit =>
      exact ⟨rfl, hI, rfl, fun _ _ => rfl⟩

/-- What the arena's own methods report agrees with the list `M`. -/
structure Observes (a : StableArena Id T) (M : List (Option T)) : Prop where
  get : ∀ id, a.get id = .ok (M[intoUsize id]?.join.map (Identified.mk id))
  contains : ∀ id, a.contains id = M[intoUsize id]?.join.isSome
  index : ∀ id, (a.index id).toOption = M[intoUsize id]?.join
  issuedLen : a.issuedLen = M.length
  len : a.len = M.countP Option.isSome
  isEmpty : a.isEmpty = true ↔ ∀ entry ∈ M, entry = none
  iter : a.iter.Perm ((entries M).map Identified.ofEntry)
  inverse : a.Inv
  panic_unchanged : ∀ op e, (step op a).1 = .error e → (step op a).2 = a

theorem Inv.observes {a : StableArena Id T} (hI : a.Inv) : a.Observes a.abs where
  get := hI.get_eq
  contains := hI.contains_eq
  index := hI.index_eq
  issuedLen := (abs_length a).symm
  len := hI.len_eq
  isEmpty := hI.isEmpty_iff
  iter := hI.iter_perm
  inverse := hI
  panic_unchanged op := (hI.step_spec op).2.2.2

theorem step_simulates :
    Simulates (fun (a : StableArena Id T) M => a.Inv ∧ a.abs = M) step specStep
      Except.toOption := by
  rintro op a M ⟨hI, rfl⟩ - -
  obtain ⟨hout, hI', habs, -⟩ := hI.step_spec op
  exact ⟨hout, hI', habs⟩

/-- Every run from the empty arena answers as the list of optional values does, and the arena it
ends in is observed to hold that list. -/
theorem run_refines_list (ops : List (Op Id T)) :
    (runOps step ops (empty : StableArena Id T)).1.map Except.toOption =
        (runOps specStep ops []).1 ∧
      (runOps step ops (empty : StableArena Id T)).2.Observes (runOps specStep ops []).2 := by
  obtain ⟨houts, hI, habs⟩ :=
    run_refines step_simulates ops (empty : StableArena Id T) [] ⟨empty_inv, rfl⟩
  refine ⟨houts, ?_⟩
  rw [← habs]
  exact hI.observes

/-- Taking back the ids from 1 on reissues them; entry 0 keeps its payload. -/
example :
    (runOps step [.push 7, .push 8, .push 9, .remove ⟨1, by decide⟩, .truncateIssued 1, .push 5]
      (empty : StableArena (DerivedId .u32) Nat)).2.iter =
        [⟨⟨0, by decide⟩, 7⟩, ⟨⟨1, by decide⟩, 5⟩] := by
  decide

end StableArena
end Jstd
