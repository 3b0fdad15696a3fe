import Jstd.Registry.Operations

/-!
# select_mut

`select_mut` inverts the requested ids into a map from index to position, walks the whole store
once, and drops each place into the slot its index asks for.  The walk keeps one invariant: having
passed the indices below `bound`, it has filled exactly the slots of those.
-/

namespace Jstd
namespace Registry

open Foundation

variable {Id T : Type} [Identifier Id]

/-! ## The map of requested indices -/

/-- The ids the first loop lets through, entered with the map `want`. -/
def Requestable (len : Nat) (want : Finmap fun _ : Nat => Nat) (ids : List Id) : Prop :=
  (∀ id ∈ ids, intoUsize id < len ∧ want.lookup (intoUsize id) = none) ∧
    (ids.map intoUsize).Nodup

theorem Requestable.cons_iff (pos : Nat) (ids : List Id) {len : Nat} {want : Finmap fun _ : Nat => Nat} {id : Id}
    (hlt : intoUsize id < len) (hnew : want.lookup (intoUsize id) = none) :
    Requestable len want (id :: ids) ↔
      Requestable len (want.insert (intoUsize id) pos) ids := by
  constructor
  · rintro ⟨hall, hnodup⟩
    obtain ⟨hnotin, hnodup⟩ := List.nodup_cons.1 hnodup
    refine ⟨?_, hnodup⟩
    intro id' hid'
    obtain ⟨hlt', hnew'⟩ := hall id' (List.mem_cons_of_mem _ hid')
    refine ⟨hlt', ?_⟩
    rw [Finmap.lookup_insert_of_ne _ ?_]
    · exact hnew'
    · intro heq
      exact hnotin (heq ▸ List.mem_map_of_mem hid')
  · rintro ⟨hall, hnodup⟩
    -- An id that is in the table is not asked for again.
    have hne : ∀ id' ∈ ids, intoUsize id' ≠ intoUsize id := by
      intro id' hid' heq
      have := (hall id' hid').2
      rw [heq, Finmap.lookup_insert] at this
      cases this
    refine ⟨?_, List.nodup_cons.2 ⟨?_, hnodup⟩⟩
    · intro id' hid'
      rcases List.mem_cons.1 hid' with rfl | hid'
      · exact ⟨hlt, hnew⟩
      · obtain ⟨hlt', hnew'⟩ := hall id' hid'
        rw [Finmap.lookup_insert_of_ne _ (hne id' hid')] at hnew'
        exact ⟨hlt', hnew'⟩
    · intro hmem
      obtain ⟨id', hid', heq⟩ := List.mem_map.1 hmem
      exact hne id' hid' heq

/-- The finished map holds the position of every requested index, besides what it held before. -/
theorem wanted_spec (r : Registry Id T) (ids : List Id) :
    ∀ (pos : Nat) (want : Finmap fun _ : Nat => Nat),
      (Requestable r.len want ids →
        ∃ full, wanted r ids pos want = .ok full ∧
          ∀ n p, full.lookup n = some p ↔
            want.lookup n = some p ∨ ∃ i, p = pos + i ∧ (ids.map intoUsize)[i]? = some n) ∧
      (¬ Requestable r.len want ids → ∃ e, wanted r ids pos want = .error e) := by
  induction ids with
  | nil =>
      intro pos want
      refine ⟨fun _ => ⟨want, rfl, ?_⟩, fun h => ?_⟩
      · intro n p
        simp
      · exact absurd ⟨by simp, by simp⟩ h
  | cons id ids ih =>
      intro pos want
      by_cases hlt : intoUsize id < r.len
      · -- The identifier is in range; a second request for it is refused.
        cases hnew : want.lookup (intoUsize id) with
        | none =>
            -- The list is requestable exactly when its tail is, with this position remembered.
            obtain ⟨hok, herr⟩ := ih (pos + 1) (want.insert (intoUsize id) pos)
            have hiff := Requestable.cons_iff pos ids hlt hnew
            simp only [wanted, hlt, if_true, hnew]
            refine ⟨?_, fun h => herr (mt hiff.2 h)⟩
            intro hreq
            obtain ⟨full, hfull, hlookup⟩ := hok (hiff.1 hreq)
            refine ⟨full, hfull, ?_⟩
            intro n p
            rw [hlookup]
            constructor
            · rintro (hold | ⟨i, rfl, hi⟩)
              · by_cases hn : n = intoUsize id
                · rw [hn, Finmap.lookup_insert, Option.some.injEq] at hold
                  exact .inr ⟨0, by omega, by simp [hn]⟩
                · rw [Finmap.lookup_insert_of_ne _ hn] at hold
                  exact .inl hold
              · exact .inr ⟨i + 1, by omega, by simpa using hi⟩
            · rintro (hold | ⟨i, rfl, hi⟩)
              · have hn : n ≠ intoUsize id := by
                  rintro rfl
                  rw [hnew] at hold
                  cases hold
                rw [Finmap.lookup_insert_of_ne _ hn]
                exact .inl hold
              · cases i with
                | zero =>
                    obtain rfl : intoUsize id = n := by simpa using hi
                    exact .inl (by rw [Finmap.lookup_insert]; rfl)
                | succ i => exact .inr ⟨i, by omega, by simpa using hi⟩
        | some old =>
            simp only [wanted, hlt, if_true, hnew]
            refine ⟨?_, fun _ => ⟨_, rfl⟩⟩
            intro hreq
            have := (hreq.1 id List.mem_cons_self).2
            rw [hnew] at this
            cases this
      · simp only [wanted, hlt, if_false]
        refine ⟨?_, fun _ => ⟨_, rfl⟩⟩
        intro hreq
        exact absurd (hreq.1 id List.mem_cons_self).1 hlt

/-! ## The walk -/

/-- The slots after the walk has passed the indices below `bound`. -/
def filled (ns : List Nat) (bound : Nat) : List (Option (Nat × Nat)) :=
  ns.map fun n => if n < bound then some (locate n) else none

theorem filled_set {ns : List Nat} (hnodup : ns.Nodup) {pos n : Nat} (hpos : ns[pos]? = some n) :
    (filled ns n).set pos (some (locate n)) = filled ns (n + 1) := by
  apply List.ext_getElem?
  intro i
  obtain ⟨hlt, -⟩ := List.getElem?_eq_some_iff.1 hpos
  by_cases hi : pos = i
  · subst hi
    rw [List.getElem?_set_self (by simpa [filled] using hlt)]
    simp [filled, hpos]
  · rw [List.getElem?_set_ne hi]
    simp only [filled, List.getElem?_map]
    cases hni : ns[i]? with
    | none => rfl
    | some m =>
        have hne : m ≠ n := by
          rintro rfl
          exact hi ((List.getElem?_inj hlt hnodup).1 (by rw [hpos, hni]))
        simp only [Option.map_some, Option.some.injEq]
        have hiff : m < n ↔ m < n + 1 := by omega
        simp only [hiff]

theorem filled_skip {ns : List Nat} {n : Nat} (h : n ∉ ns) : filled ns n = filled ns (n + 1) := by
  apply List.map_congr_left
  intro m hm
  have hne : m ≠ n := by
    rintro rfl
    exact h hm
  have hiff : m < n ↔ m < n + 1 := by omega
  simp only [hiff]

theorem route_spec {ns : List Nat} (hnodup : ns.Nodup) {want : Finmap fun _ : Nat => Nat}
    (hwant : ∀ n p, want.lookup n = some p ↔ ns[p]? = some n) (count : Nat) :
    ∀ start, (∀ n < start + count, RoundTrips Id n) →
      route want ((List.range' start count).map fun n => (⟨fromUsize n, locate n⟩ :
        Identified Id (Nat × Nat))) (filled ns start) = .ok (filled ns (start + count)) := by
  induction count with
  | zero =>
      intro start _
      rfl
  | succ count ih =>
      intro start hrt
      have hstart : intoUsize (fromUsize start : Id) = start := hrt start (by omega)
      have hrest := ih (start + 1) (fun n hn => hrt n (by omega))
      rw [show start + (count + 1) = start + 1 + count by omega]
      rw [List.range'_succ, List.map_cons, route]
      simp only
      rw [hstart]
      -- The element is wanted at one position of the request, or not at all.
      cases hlook : want.lookup start with
      | some pos =>
          have hpos := (hwant start pos).1 hlook
          have hlt : pos < (filled ns start).length := by
            simpa [filled] using (List.getElem?_eq_some_iff.1 hpos).1
          simp only [setIndex_of_lt hlt, filled_set hnodup hpos]
          exact hrest
      | none =>
          have hnotin : start ∉ ns := by
            intro hmem
            obtain ⟨pos, hpos⟩ := List.mem_iff_getElem?.1 hmem
            rw [(hwant start pos).2 hpos] at hlook
            cases hlook
          simp only
          rw [filled_skip hnotin]
          exact hrest

theorem expectAll_some (ps : List (Nat × Nat)) : expectAll (ps.map some) = .ok ps := by
  induction ps with
  | nil => rfl
  | cons p ps ih =>
      simp [expectAll, expect, ih, Bind.bind, Except.bind, pure, Except.pure]

/-! ## The whole call -/

/-- The ids `select_mut` accepts: in bounds and distinct. -/
def Selectable (len : Nat) (ids : List Id) : Prop :=
  (∀ id ∈ ids, intoUsize id < len) ∧ (ids.map intoUsize).Nodup

instance (len : Nat) (ids : List Id) : Decidable (Selectable len ids) :=
  inferInstanceAs (Decidable (_ ∧ _))

theorem requestable_empty {len : Nat} {ids : List Id} :
    Requestable len ∅ ids ↔ Selectable len ids := by
  simp [Requestable, Selectable]

/-- `select_mut` returns the places of the requested elements, in the order of the request. -/
theorem Inv.selectMut_spec {r : Registry Id T} (hI : r.Inv) {ids : List Id}
    (hrt : ∀ n < r.len, RoundTrips Id n) (hsel : Selectable r.len ids) :
    selectMut r ids = .ok ((ids.map intoUsize).map locate) := by
  obtain ⟨full, hfull, hlookup⟩ := (wanted_spec r ids 0 ∅).1 (requestable_empty.2 hsel)
  have hwant : ∀ n p, full.lookup n = some p ↔ (ids.map intoUsize)[p]? = some n := by
    intro n p
    rw [hlookup]
    simp
  -- `iter_mut` yields the elements in order, each at its place.
  have hiter : r.iterMut = (List.range' 0 r.len).map fun n =>
      (⟨fromUsize n, locate n⟩ : Identified Id (Nat × Nat)) := by
    rw [iterMut, numbered, hI.places_eq, List.range_eq_range']
    apply List.ext_getElem?
    intro i
    simp only [List.getElem?_map, List.getElem?_zipIdx]
    by_cases hi : i < r.len
    · simp [List.getElem?_range' hi]
    · simp [Nat.not_lt.1 hi]
  have hempty : List.replicate ids.length none = filled (ids.map intoUsize) 0 := by
    simp [filled, Function.comp_def]
  have hall : filled (ids.map intoUsize) (0 + r.len) =
      ((ids.map intoUsize).map locate).map some := by
    rw [filled, List.map_map (l := (ids.map intoUsize))]
    apply List.map_congr_left
    intro n hn
    obtain ⟨id, hid, rfl⟩ := List.mem_map.1 hn
    have := hsel.1 id hid
    simp [this]
  have hroute := @route_spec Id _ _ hsel.2 _ hwant r.len 0 (by simpa using hrt)
  rw [← hiter, ← hempty, hall] at hroute
  simp only [selectMut, hfull, Bind.bind, Except.bind, hroute]
  exact expectAll_some _

/-- It panics on every other request. -/
theorem selectMut_rejects {r : Registry Id T} {ids : List Id} (hsel : ¬ Selectable r.len ids) :
    ∃ e, selectMut r ids = .error e := by
  obtain ⟨e, he⟩ := (wanted_spec r ids 0 ∅).2 (mt requestable_empty.1 hsel)
  exact ⟨e, by simp only [selectMut, he, Bind.bind, Except.bind]⟩

end Registry
end Jstd
