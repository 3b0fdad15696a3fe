import Jstd.Registry.Refinement

/-!
# Every registry a program can reach

A registry is built empty or from a sequence, and then takes any operations, in any order, whether
or not its ids still convert back.  The layout invariant survives all of them, also those that
panic, so what it says about `select_mut` and `push` holds of every registry there is.
-/

namespace Jstd
namespace Registry

open Foundation

variable {Id T : Type} [Identifier Id]

/-! ## Reachable registries -/

/-- The registries that construction and any operations lead to; `from_iter` is also how a
registry is collected and deserialised. -/
inductive Reachable : Registry Id T → Prop
  | empty : Reachable empty
  | fromIter {items : List T} {r : Registry Id T} (h : fromIter items = .ok r) : Reachable r
  | step {r : Registry Id T} (h : Reachable r) (debug : Bool) (op : Op Id T) :
      Reachable (step debug op r).2

theorem push_keeps (e : T) :
    Method.Keeps Inv (push e : Method Panic (Registry Id T) Id) := by
  intro r hI
  rcases Nat.lt_or_ge r.len usizeMax with hlt | hge
  · obtain ⟨r', hrun, hI', -⟩ := hI.push_spec e hlt
    rw [hrun]
    exact hI'
  · obtain ⟨err, hrun⟩ := hI.push_full e (Nat.le_antisymm hI.len_le hge)
    rw [hrun]
    exact hI

theorem fromIter_inv {items : List T} {r : Registry Id T} (h : fromIter items = .ok r) :
    r.Inv := by
  have hkeep := Method.Keeps.forEach (fun e => (push_keeps e).bind fun _ => .pure ()) items
    (empty : Registry Id T) empty_inv
  unfold Registry.fromIter at h
  split at h
  · rename_i reg hrun
    cases h
    rw [hrun] at hkeep
    exact hkeep
  · cases h

omit [Identifier Id] in
/-- A write through any borrow, even one the registry did not hand out. -/
theorem writePlace_keeps (write : T → T) (p : Nat × Nat) :
    Method.Keeps Inv (writePlace write p : Method Panic (Registry Id T) T) := by
  intro r hI
  rw [writePlace, Method.run_bind_get]
  cases hc : r.chunks[p.1]? with
  | none =>
      rw [index_of_none hc]
      exact hI
  | some c =>
      rw [index_of_getElem? hc, Method.run_bind_liftM_ok]
      cases hv : c.elems[p.2]? with
      | none =>
          rw [index_of_none hv]
          exact hI
      | some v =>
          rw [index_of_getElem? hv]
          exact hI.set_elem p.2 hc (write v)

omit [Identifier Id] in
theorem writeAt_keeps (debug : Bool) (n : Nat) (write : T → T) :
    Method.Keeps Inv (writeAt debug n write : Method Panic (Registry Id T) T) :=
  .bind .get fun _ => .bind (.liftM _) fun p => writePlace_keeps write p

omit [Identifier Id] in
theorem writePlaces_keeps (write : Nat → T → T) (ps : List (Nat × Nat)) :
    ∀ start, Method.Keeps Inv
      (writePlaces write ps start : Method Panic (Registry Id T) (List T)) := by
  induction ps with
  | nil =>
      intro start
      exact .pure []
  | cons p ps ih =>
      intro start
      exact .bind (writePlace_keeps (write start) p) fun _ => .bind (ih (start + 1)) fun _ => .pure _

theorem assignClone_keeps :
    Method.Keeps Inv (assignClone : Method Panic (Registry Id T) Unit) := by
  intro r hI
  obtain ⟨r', hclone, hI', -⟩ := hI.clone_spec
  rw [assignClone, Method.run_bind_get, hclone]
  exact hI'

/-- Every operation keeps the layout, whatever it answers. -/
theorem Inv.step {r : Registry Id T} (hI : r.Inv) (debug : Bool) (op : Op Id T) :
    (step debug op r).2.Inv := by
  cases op with
  | push e => exact (push_keeps e).map _ r hI
  | truncate len =>
      obtain ⟨r', hrun, hI', -⟩ := hI.truncate_spec len
      rw [Registry.step, Method.run_map, hrun]
      exact hI'
  | replace id value => exact (writeAt_keeps debug _ _).map _ r hI
  | getMut id write =>
      exact ((writeAt_keeps debug (intoUsize id) write).bind fun _ => .pure _).map _ r hI
  | indexMut id write => exact (writeAt_keeps debug _ _).map _ r hI
  | selectMut ids write =>
      have hkeep : Method.Keeps Inv (selectAndWrite ids write) :=
        .bind .get fun _ => .bind (.liftM _) fun ps => writePlaces_keeps write ps 0
      exact hkeep.map _ r hI
  | iterMut write =>
      have hkeep : Method.Keeps Inv
          (iterAndWrite write : Method Panic (Registry Id T) (List T)) :=
        .bind .get fun _ => writePlaces_keeps write _ 0
      exact hkeep.map _ r hI
  | clone => exact assignClone_keeps.map _ r hI

theorem Reachable.inv {r : Registry Id T} (hr : Reachable r) : r.Inv := by
  induction hr with
  | empty => exact empty_inv
  | fromIter h => exact fromIter_inv h
  | step _ debug op ih => exact ih.step debug op

/-! ## select_mut -/

omit [Identifier Id] in
theorem rewriteAll_length (write : Nat → T → T) (ns : List Nat) :
    ∀ start (L : List T), (rewriteAll write ns start L).length = L.length := by
  induction ns with
  | nil =>
      intro start L
      rfl
  | cons n ns ih =>
      intro start L
      rw [rewriteAll, ih, List.length_modify]

omit [Identifier Id] in
theorem rewriteAll_of_notMem (write : Nat → T → T) {ns : List Nat} {m : Nat} (hm : m ∉ ns) :
    ∀ start (L : List T), (rewriteAll write ns start L)[m]? = L[m]? := by
  induction ns with
  | nil =>
      intro start L
      rfl
  | cons n ns ih =>
      intro start L
      obtain ⟨hne, hm⟩ := List.ne_and_not_mem_of_not_mem_cons hm
      rw [rewriteAll, ih hm, List.getElem?_modify_ne _ _ (Ne.symm hne)]

omit [Identifier Id] in
/-- The element a distinct index names is rewritten once, by its own writer. -/
theorem rewriteAll_of_getElem? (write : Nat → T → T) {ns : List Nat} (hnodup : ns.Nodup) :
    ∀ {i m : Nat} start (L : List T), ns[i]? = some m →
      (rewriteAll write ns start L)[m]? = L[m]?.map (write (start + i)) := by
  induction ns with
  | nil =>
      intro i m start L hi
      cases hi
  | cons n ns ih =>
      intro i m start L hi
      obtain ⟨hnotin, hnodup⟩ := List.nodup_cons.1 hnodup
      rw [rewriteAll]
      cases i with
      | zero =>
          obtain rfl : n = m := by simpa using hi
          rw [rewriteAll_of_notMem write hnotin, List.getElem?_modify_eq, Nat.add_zero]
          rfl
      | succ i =>
          have hi' : ns[i]? = some m := by simpa using hi
          have hne : n ≠ m := by
            rintro rfl
            exact hnotin (List.mem_of_getElem? hi')
          rw [ih hnodup (start + 1) _ hi', List.getElem?_modify_ne _ _ hne]
          congr 2
          omega

/-- Indexing an element of the flattened store. -/
theorem Inv.index_of_some {r : Registry Id T} (hI : r.Inv) (debug : Bool) {id : Id} {v : T}
    (hv : r.flat[intoUsize id]? = some v) : r.index debug id = .ok v := by
  rw [Registry.index, readAt, hI.place_of_some debug hv]
  exact hI.readPlace_locate hv

/-- What `select_mut` hands out: one borrow for each request, of the element requested. -/
structure Selects (r : Registry Id T) (ids : List Id) (ps : List (Nat × Nat)) : Prop where
  length : ps.length = ids.length
  disjoint : ps.Nodup
  element : ∀ {i : Nat} {id : Id} {p : Nat × Nat}, ids[i]? = some id → ps[i]? = some p →
    ∃ v, readPlace r p = .ok v ∧ ∀ debug, r.index debug id = .ok v
  /-- Writing `vs i` through the `i`-th borrow changes that element and no other. -/
  written : ∀ vs : Nat → T, ∃ old r', (writePlaces (fun i _ => vs i) ps 0).run r = (.ok old, r') ∧
    r'.len = r.len ∧
    (∀ {i : Nat} {id : Id}, ids[i]? = some id → ∀ debug, r'.index debug id = .ok (vs i)) ∧
    ∀ n, n ∉ ids.map intoUsize → r'.flat[n]? = r.flat[n]?

theorem Inv.selects {r : Registry Id T} (hI : r.Inv) {ids : List Id}
    (hsel : Selectable r.len ids) : Selects r ids ((ids.map intoUsize).map locate) := by
  have hlt : ∀ n ∈ ids.map intoUsize, n < r.flat.length := by
    intro n hn
    obtain ⟨id, hid, rfl⟩ := List.mem_map.1 hn
    rw [hI.flat_length]
    exact hsel.1 id hid
  have hread : ∀ {i : Nat} {id : Id}, ids[i]? = some id →
      ∃ v, r.flat[intoUsize id]? = some v := by
    intro i id hid
    exact ⟨_, List.getElem?_eq_getElem (hlt _ (List.mem_map_of_mem (List.mem_of_getElem? hid)))⟩
  constructor
  · rw [List.length_map, List.length_map]
  · -- Different indices have different places, since each place is read at its own index.
    refine List.Nodup.map_on ?_ hsel.2
    intro m hm n hn heq
    obtain ⟨k, offset, c, hk, -, hmk, -⟩ :=
      hI.exists_place (List.getElem?_eq_getElem (hlt m hm))
    obtain ⟨l, offset', d, hl, -, hnl, -⟩ :=
      hI.exists_place (List.getElem?_eq_getElem (hlt n hn))
    rw [hk, hl] at heq
    cases heq
    rw [hmk, hnl]
  · intro i id p hid hp
    obtain ⟨v, hv⟩ := hread hid
    obtain rfl : locate (intoUsize id) = p := by simpa [hid] using hp
    exact ⟨v, hI.readPlace_locate hv, fun debug => hI.index_of_some debug hv⟩
  · intro vs
    -- Distinct indices are written one after the other, and no write undoes another.
    obtain ⟨r', hrun, hI', hflat⟩ :=
      hI.writePlaces_spec (fun i _ => vs i) (ids.map intoUsize) 0 hsel.2 hlt
    refine ⟨_, r', hrun, ?_, ?_, ?_⟩
    · rw [← hI'.flat_length, hflat, rewriteAll_length, hI.flat_length]
    · intro i id hid debug
      obtain ⟨v, hv⟩ := hread hid
      have hi : (ids.map intoUsize)[i]? = some (intoUsize id) := by simp [hid]
      refine hI'.index_of_some debug ?_
      rw [hflat, rewriteAll_of_getElem? _ hsel.2 0 r.flat hi, hv, Nat.zero_add]
      rfl
    · intro n hn
      rw [hflat, rewriteAll_of_notMem _ hn]

/-- `select_mut` panics exactly on an id out of bounds or an index requested twice, with nothing
touched, and otherwise hands out the requested elements. -/
theorem Reachable.selectMut_exact {r : Registry Id T} (hr : Reachable r) (ids : List Id)
    (hrt : ∀ n < r.len, RoundTrips Id n) :
    ((∃ e, selectMut r ids = .error e) ↔
        (∃ id ∈ ids, r.len ≤ intoUsize id) ∨ ¬ (ids.map intoUsize).Nodup) ∧
      (∀ e write, selectMut r ids = .error e →
        (selectAndWrite ids write).run r = (.error e, r)) ∧
      ∀ ps, selectMut r ids = .ok ps → Selects r ids ps := by
  have hI := hr.inv
  have hiff : ¬ Selectable r.len ids ↔
      (∃ id ∈ ids, r.len ≤ intoUsize id) ∨ ¬ (ids.map intoUsize).Nodup := by
    rw [Selectable, not_and_or]
    simp only [not_forall, Nat.not_lt, exists_prop]
  refine ⟨?_, ?_, ?_⟩
  · rw [← hiff]
    constructor
    -- A selection that fails asked for too much, since the others succeed.
    · rintro ⟨e, he⟩ hsel
      rw [hI.selectMut_spec hrt hsel] at he
      cases he
    · exact selectMut_rejects
  -- The panic comes before any borrow is handed out.
  · intro e write he
    rw [selectAndWrite, Method.run_bind_get, he, Method.run_bind_liftM_error]
  · intro ps hps
    by_cases hsel : Selectable r.len ids
    · rw [hI.selectMut_spec hrt hsel] at hps
      cases hps
      exact hI.selects hsel
    · obtain ⟨e, he⟩ := selectMut_rejects hsel
      rw [he] at hps
      cases hps

/-- Three elements, of which one truncation took the last: the ids left select in any order. -/
theorem selectMut_exact_truncated :
    ∃ (r : Registry (DerivedId .u32) Nat) (ps : List (Nat × Nat)),
      selectMut r [DerivedId.ofNat .u32 1, DerivedId.ofNat .u32 0] = .ok ps ∧
        Selects r [DerivedId.ofNat .u32 1, DerivedId.ofNat .u32 0] ps := by
  have hempty : Reachable (empty : Registry (DerivedId .u32) Nat) := .empty
  have hr := (((hempty.step false (.push 7)).step false (.push 8)).step false (.push 9)).step false
    (.truncate 2)
  refine ⟨_, [(1, 0), (0, 0)], ?_, (hr.selectMut_exact _ ?_).2.2 _ ?_⟩
  · decide
  · decide
  · decide

/-! ## The ids push issues -/

/-- Pushing `v` issues an id that names it, or panics with the registry as it was. -/
def IssuesOwn (r : Registry Id T) (v : T) : Prop :=
  (∃ id r', (push v).run r = (.ok id, r') ∧ ∀ debug, r'.index debug id = .ok v) ∨
    ∃ e, (push v).run r = (.error e, r)

/-- An id names the element pushed under it when the length it was made from converts back. -/
theorem Inv.issuesOwn {r : Registry Id T} (hI : r.Inv) (hrt : RoundTrips Id r.len) (v : T) :
    r.IssuesOwn v := by
  rcases Nat.lt_or_ge r.len usizeMax with hlt | hge
  · obtain ⟨r', hrun, hI', hflat⟩ := hI.push_spec v hlt
    refine .inl ⟨fromUsize r.len, r', hrun, fun debug => hI'.index_of_some debug ?_⟩
    have hid : intoUsize (fromUsize r.len : Id) = r.len := hrt
    rw [hflat, hid, ← hI.flat_length, List.getElem?_concat_length]
  · exact .inr (hI.push_full v (Nat.le_antisymm hI.len_le hge))

/-- Otherwise the id names an older element, which is read in its place. -/
theorem Inv.push_of_wrapped {r : Registry Id T} (hI : r.Inv) (hlen : r.len < usizeMax) {w : T}
    (hw : r.flat[intoUsize (fromUsize r.len : Id)]? = some w) (v : T) :
    ∃ r', (push v).run r = (.ok (fromUsize r.len), r') ∧
      ∀ debug, r'.index debug (fromUsize r.len) = .ok w := by
  obtain ⟨r', hrun, hI', hflat⟩ := hI.push_spec v hlen
  refine ⟨r', hrun, fun debug => hI'.index_of_some debug ?_⟩
  rw [hflat, List.getElem?_append_left (List.getElem?_eq_some_iff.1 hw).1, hw]

/-- A run of pushes of one value reaches every length. -/
theorem exists_reachable_replicate (v : T) (n : Nat) (hn : n ≤ usizeMax) :
    ∃ r : Registry Id T, r.Reachable ∧ r.flat = List.replicate n v := by
  induction n with
  | zero => exact ⟨empty, .empty, rfl⟩
  | succ n ih =>
      obtain ⟨r, hr, hflat⟩ := ih (by omega)
      have hlen : r.len = n := by rw [← hr.inv.flat_length, hflat, List.length_replicate]
      obtain ⟨r', hrun, -, hflat'⟩ := hr.inv.push_spec v (by omega)
      have hstep := hr.step false (.push v)
      rw [step, Method.run_map, hrun] at hstep
      exact ⟨r', hstep, by rw [hflat', hflat, List.replicate_succ']⟩

end Registry
end Jstd
