import Jstd.Foundation.Simulation
import Jstd.Registry.Selection

/-!
# Registry refines a flat list

Every run of the mutating operations answers as the same operations on one list of elements do, and
every reading method of the registry it ends in reports that list: indexing through the chunk
arithmetic, and iteration, equality and serialisation through the flattened chunks.
-/

namespace Jstd
namespace Registry

open Foundation

variable {Id T : Type} [Identifier Id]

/-! ## Rebuilding -/

/-- Pushing the elements of a list one by one builds a registry of that list. -/
theorem fromIter_spec {L : List T} (hL : L.length ≤ usizeMax) :
    ∃ r : Registry Id T, fromIter L = .ok r ∧ r.Inv ∧ r.flat = L := by
  obtain ⟨r, hrun, hI, hflat⟩ := Method.forEach_induction
    (fun e => do let _ ← push e) (fun done (r : Registry Id T) => r.Inv ∧ r.flat = done)
    L (s := empty) ⟨empty_inv, rfl⟩ (by
      rintro done e rest r hsplit ⟨hI, rfl⟩
      have hlen : r.len < usizeMax := by
        have := hI.flat_length
        rw [hsplit, List.length_append, List.length_cons] at hL
        omega
      obtain ⟨r', hpush, hI', hflat'⟩ := hI.push_spec e hlen
      exact ⟨r', by rw [Method.run_bind_of_ok hpush]; rfl, hI', hflat'⟩)
  exact ⟨r, by rw [fromIter, hrun], hI, hflat⟩

theorem Inv.clone_spec {r : Registry Id T} (hI : r.Inv) :
    ∃ r' : Registry Id T, r.clone = .ok r' ∧ r'.Inv ∧ r'.flat = r.flat :=
  fromIter_spec (by rw [hI.flat_length]; exact hI.len_le)

/-! ## Comparing and iterating -/

omit [Identifier Id] in
/-- Equality compares the elements, however the chunks came about. -/
theorem Inv.eq_iff [DecidableEq T] {r s : Registry Id T} (hr : r.Inv) (hs : s.Inv) :
    r.eq s = true ↔ r.flat = s.flat := by
  unfold eq
  rw [Bool.and_eq_true, beq_iff_eq, beq_iff_eq]
  constructor
  · rintro ⟨-, h⟩
    exact h
  · intro h
    exact ⟨by rw [← hr.flat_length, ← hs.flat_length, h], h⟩

/-- The items of a numbered sequence carry the indices `0, 1, ..` in order. -/
theorem numbered_eq {α : Type} {items : List α} (hrt : ∀ n < items.length, RoundTrips Id n) :
    (numbered items : List (Identified Id α)).map (fun item => (item.inner, intoUsize item.id)) =
      items.zipIdx := by
  rw [numbered, List.map_map]
  have hid : ∀ p ∈ items.zipIdx,
      ((fun item : Identified Id α => (item.inner, intoUsize item.id)) ∘
        fun p : α × Nat => ⟨fromUsize p.2, p.1⟩) p = p := by
    rintro ⟨item, n⟩ hmem
    obtain ⟨hlt, -⟩ := List.mem_zipIdx' hmem
    have hn : intoUsize (fromUsize n : Id) = n := hrt n hlt
    simp [hn]
  calc _ = items.zipIdx.map id := List.map_congr_left hid
    _ = items.zipIdx := List.map_id _

theorem Inv.iterMut_reads {r : Registry Id T} (hI : r.Inv) :
    (r.iterMut).map (fun item => (⟨item.id, readPlace r item.inner⟩ : Identified Id _)) =
      numbered (r.flat.map Except.ok) := by
  rw [iterMut, numbered, numbered, List.map_map, hI.places_eq]
  apply List.ext_getElem?
  intro n
  simp only [List.getElem?_map, List.getElem?_zipIdx]
  cases hv : r.flat[n]? with
  | none =>
      have hge := List.getElem?_eq_none_iff.1 hv
      rw [hI.flat_length] at hge
      simp [hge]
  | some v =>
      have hlt := (List.getElem?_eq_some_iff.1 hv).1
      rw [hI.flat_length] at hlt
      simp [List.getElem?_range hlt, hI.readPlace_locate hv]

/-! ## Operations and their meaning on a list -/

/-- The mutating operations of the registry, `clone` replacing it by its copy. -/
inductive Op (Id T : Type)
  | push (e : T)
  | truncate (len : Nat)
  | replace (id : Id) (value : T)
  | getMut (id : Id) (write : T → T)
  | indexMut (id : Id) (write : T → T)
  | selectMut (ids : List Id) (write : Nat → T → T)
  | iterMut (write : Nat → T → T)
  | clone

/-- What an operation returns; borrows are reported by the values they are taken at. -/
inductive Out (T : Type)
  | index (n : Nat)
  | value (v : T)
  | entry (n : Nat) (v : T)
  | values (vs : List T)
  | unit

/-- `select_mut`, with the writes performed through the borrows. -/
def selectAndWrite (ids : List Id) (write : Nat → T → T) :
    Method Panic (Registry Id T) (List T) := do
  let self ← MonadState.get
  let ps ← selectMut self ids
  writePlaces write ps 0

/-- `iter_mut`, with the writes performed through the borrows. -/
def iterAndWrite (write : Nat → T → T) : Method Panic (Registry Id T) (List T) := do
  let self ← MonadState.get
  writePlaces write (self.iterMut.map Identified.inner) 0

/-- `*self = self.clone()`. -/
def assignClone : Method Panic (Registry Id T) Unit := do
  let self ← MonadState.get
  let copy ← self.clone
  modify fun _ => copy

/-- One operation of the real registry; a panic leaves some registry behind as well. -/
def step (debug : Bool) (op : Op Id T) (r : Registry Id T) :
    Except Panic (Out T) × Registry Id T :=
  match op with
  | .push e => ((fun id => Out.index (intoUsize id)) <$> push e).run r
  | .truncate len => ((fun _ => Out.unit) <$> truncate len).run r
  | .replace id value => (Out.value <$> replace debug id value).run r
  | .getMut id write =>
      ((fun item => Out.entry (intoUsize item.id) item.inner) <$> getMut debug id write).run r
  | .indexMut id write => (Out.value <$> indexMut debug id write).run r
  | .selectMut ids write => (Out.values <$> selectAndWrite ids write).run r
  | .iterMut write => (Out.values <$> iterAndWrite write).run r
  | .clone => ((fun _ => Out.unit) <$> assignClone).run r

/-- The same operation on the list; `none` is a panic, which changes nothing. -/
def specStep (op : Op Id T) (L : List T) : Option (Out T) × List T :=
  match op with
  | .push e => if L.length < usizeMax then (some (.index L.length), L ++ [e]) else (none, L)
  | .truncate len => (some .unit, L.take len)
  | .replace id value =>
      match L[intoUsize id]? with
      | some old => (some (.value old), L.set (intoUsize id) value)
      | none => (none, L)
  | .getMut id write =>
      match L[intoUsize id]? with
      | some old => (some (.entry (intoUsize id) old), L.set (intoUsize id) (write old))
      | none => (none, L)
  | .indexMut id write =>
      match L[intoUsize id]? with
      | some old => (some (.value old), L.set (intoUsize id) (write old))
      | none => (none, L)
  | .selectMut ids write =>
      if Selectable L.length ids then
        (some (.values ((ids.map intoUsize).filterMap fun n => L[n]?)),
          rewriteAll write (ids.map intoUsize) 0 L)
      else (none, L)
  | .iterMut write => (some (.values L), rewriteAll write (List.range L.length) 0 L)
  | .clone => (some .unit, L)

/-! ## Runs -/

/-- Every index of the list survives the conversion to an identifier and back. -/
def Addressable (Id : Type) {T : Type} [Identifier Id] (L : List T) : Prop :=
  ∀ n < L.length, RoundTrips Id n

theorem Inv.selectAndWrite_spec {r : Registry Id T} (hI : r.Inv) {ids : List Id}
    (hrt : Addressable Id r.flat) (hsel : Selectable r.flat.length ids)
    (write : Nat → T → T) :
    ∃ r', (selectAndWrite ids write).run r =
        (.ok ((ids.map intoUsize).filterMap fun n => r.flat[n]?), r') ∧
      r'.Inv ∧ r'.flat = rewriteAll write (ids.map intoUsize) 0 r.flat := by
  rw [Addressable, hI.flat_length] at hrt
  have hbound : ∀ n ∈ ids.map intoUsize, n < r.flat.length := by
    intro n hn
    obtain ⟨id, hid, rfl⟩ := List.mem_map.1 hn
    exact hsel.1 id hid
  have hnodup := hsel.2
  rw [hI.flat_length] at hsel
  rw [selectAndWrite, Method.run_bind_get, hI.selectMut_spec hrt hsel, Method.run_bind_liftM_ok]
  exact hI.writePlaces_spec write (ids.map intoUsize) 0 hnodup hbound

theorem Inv.iterAndWrite_spec {r : Registry Id T} (hI : r.Inv) (write : Nat → T → T) :
    ∃ r', (iterAndWrite write).run r = (.ok r.flat, r') ∧ r'.Inv ∧
      r'.flat = rewriteAll write (List.range r.flat.length) 0 r.flat := by
  have hplaces : r.iterMut.map Identified.inner = (List.range r.flat.length).map locate := by
    rw [iterMut, numbered, List.map_map, hI.places_eq, hI.flat_length]
    exact List.zipIdx_map_fst 0 _
  -- Reading every index in order reads the list.
  have hvalues : (List.range r.flat.length).filterMap (fun n => r.flat[n]?) = r.flat := by
    have hmap : (List.range r.flat.length).map (fun n => r.flat[n]?) = r.flat.map some := by
      apply List.ext_getElem?
      intro n
      by_cases hn : n < r.flat.length
      · simp [List.getElem?_range hn, List.getElem?_eq_getElem hn]
      · simp [Nat.not_lt.1 hn]
    calc (List.range r.flat.length).filterMap (fun n => r.flat[n]?)
        = ((List.range r.flat.length).map fun n => r.flat[n]?).filterMap id := by
          rw [List.filterMap_map]
          rfl
      _ = r.flat := by
          rw [hmap, List.filterMap_map]
          exact List.filterMap_some
  obtain ⟨r', hrun, hI', hflat'⟩ := hI.writePlaces_spec write (List.range r.flat.length) 0
    List.nodup_range (fun n hn => List.mem_range.1 hn)
  rw [hvalues] at hrun
  refine ⟨r', ?_, hI', hflat'⟩
  rw [iterAndWrite, Method.run_bind_get, hplaces, hrun]

/-- The case of `push`: the id it returns is the old length. -/
theorem Inv.push_step {r : Registry Id T} (hI : r.Inv) (debug : Bool) (e : T)
    (hrt : Addressable Id (specStep (.push e : Op Id T) r.flat).2) :
    (step debug (.push e) r).1.toOption = (specStep (.push e : Op Id T) r.flat).1 ∧
      (step debug (.push e) r).2.Inv ∧
      (step debug (.push e) r).2.flat = (specStep (.push e : Op Id T) r.flat).2 ∧
      ∀ err, (step debug (.push e) r).1 = .error err → (step debug (.push e) r).2 = r := by
  have hlen := hI.flat_length
  -- Below the last length the id converts back; at it `push` panics.
  by_cases hmax : r.flat.length < usizeMax
  · have hspec : specStep (.push e : Op Id T) r.flat =
        (some (.index r.flat.length), r.flat ++ [e]) := if_pos hmax
    rw [hspec] at hrt
    have hid : intoUsize (fromUsize r.len : Id) = r.len :=
      hrt r.len (by rw [List.length_append, List.length_singleton]; omega)
    obtain ⟨r', hrun, hI', hflat⟩ := hI.push_spec e (hlen ▸ hmax)
    have hstep : step debug (.push e) r = (.ok (.index r.len), r') := by
      rw [step, Method.run_map, hrun, Except.map, hid]
    rw [hspec, hstep, hlen]
    refine ⟨rfl, hI', hflat, ?_⟩
    intro err herr
    cases herr
  · have hspec : specStep (.push e : Op Id T) r.flat = (none, r.flat) := if_neg hmax
    obtain ⟨err, hrun⟩ := hI.push_full e (by have := hI.len_le; omega)
    have hstep : step debug (.push e) r = (.error err, r) := by
      rw [step, Method.run_map, hrun, Except.map]
    rw [hspec, hstep]
    exact ⟨rfl, hI, rfl, fun _ _ => rfl⟩

/-- One operation answers as the list does and keeps the layout; a panic leaves the registry as it
was. -/
theorem Inv.step_spec {r : Registry Id T} (hI : r.Inv) (debug : Bool) (op : Op Id T)
    (hrt : Addressable Id r.flat) (hrt' : Addressable Id (specStep op r.flat).2) :
    (step debug op r).1.toOption = (specStep op r.flat).1 ∧ (step debug op r).2.Inv ∧
      (step debug op r).2.flat = (specStep op r.flat).2 ∧
      ∀ e, (step debug op r).1 = .error e → (step debug op r).2 = r := by
  cases op with
  | push e => exact hI.push_step debug e hrt'
  | truncate len =>
      obtain ⟨r', hrun, hI', hflat⟩ := hI.truncate_spec len
      simp only [step, specStep, Method.run_map, hrun]
      exact ⟨rfl, hI', hflat, by simp [Except.map]⟩
  | replace id value =>
      simp only [step, specStep, Method.run_map, replace]
      cases hv : r.flat[intoUsize id]? with
      | some old =>
          obtain ⟨r', hrun, hI', hflat⟩ := hI.writeAt_of_some debug (fun _ => value) hv
          rw [hrun]
          exact ⟨rfl, hI', hflat, by simp [Except.map]⟩
      | none =>
          obtain ⟨e, hrun⟩ := hI.writeAt_of_none debug (fun _ => value)
            (Identifier.intoUsize_le id) hv
          rw [hrun]
          exact ⟨rfl, hI, rfl, fun _ _ => rfl⟩
  | getMut id write =>
      simp only [step, specStep, Method.run_map, getMut]
      cases hv : r.flat[intoUsize id]? with
      | some old =>
          obtain ⟨r', hrun, hI', hflat⟩ := hI.writeAt_of_some debug write hv
          rw [Method.run_bind_of_ok hrun]
          exact ⟨rfl, hI', hflat, by simp [Except.map]⟩
      | none =>
          obtain ⟨e, hrun⟩ := hI.writeAt_of_none debug write (Identifier.intoUsize_le id) hv
          rw [Method.run_bind_of_error hrun]
          exact ⟨rfl, hI, rfl, fun _ _ => rfl⟩
  | indexMut id write =>
      simp only [step, specStep, Method.run_map, indexMut]
      cases hv : r.flat[intoUsize id]? with
      | some old =>
          obtain ⟨r', hrun, hI', hflat⟩ := hI.writeAt_of_some debug write hv
          rw [hrun]
          exact ⟨rfl, hI', hflat, by simp [Except.map]⟩
      | none =>
          obtain ⟨e, hrun⟩ := hI.writeAt_of_none debug write (Identifier.intoUsize_le id) hv
          rw [hrun]
          exact ⟨rfl, hI, rfl, fun _ _ => rfl⟩
  | selectMut ids write =>
      simp only [step, specStep, Method.run_map]
      by_cases hsel : Selectable r.flat.length ids
      · obtain ⟨r', hrun, hI', hflat⟩ := hI.selectAndWrite_spec hrt hsel write
        rw [hrun, if_pos hsel]
        exact ⟨rfl, hI', hflat, by simp [Except.map]⟩
      · rw [if_neg hsel]
        rw [hI.flat_length] at hsel
        -- The selection is refused before anything is written.
        obtain ⟨e, he⟩ := selectMut_rejects hsel
        rw [selectAndWrite, Method.run_bind_get, he, Method.run_bind_liftM_error]
        exact ⟨rfl, hI, rfl, fun _ _ => rfl⟩
  | iterMut write =>
      obtain ⟨r', hrun, hI', hflat⟩ := hI.iterAndWrite_spec write
      simp only [step, specStep, Method.run_map, hrun]
      exact ⟨rfl, hI', hflat, by simp [Except.map]⟩
  | clone =>
      obtain ⟨r', hclone, hI', hflat⟩ := hI.clone_spec
      simp only [step, specStep, Method.run_map, assignClone, Method.run_bind_get, hclone,
        Method.run_bind_liftM_ok, Method.run_modify]
      exact ⟨rfl, hI', hflat, by simp [Except.map]⟩

/-- What the registry's own methods report agrees with the list `L`. -/
structure Observes (r : Registry Id T) (L : List T) : Prop where
  len : r.len = L.length
  isEmpty : r.isEmpty = L.isEmpty
  /-- Indexing reads the list and panics past its end, debug assertions or not. -/
  index : ∀ debug id, (r.index debug id).toOption = L[intoUsize id]?
  get : ∀ debug id, (r.get debug id).toOption = L[intoUsize id]?.map (Identified.mk id)
  iter : r.iter = numbered L
  intoIter : r.intoIter = numbered L
  iterMut : r.iterMut.map (fun item => (⟨item.id, readPlace r item.inner⟩ : Identified Id _)) =
    numbered (L.map Except.ok)
  ids : r.iter.map (fun item => (item.inner, intoUsize item.id)) = L.zipIdx
  serialize : r.serialize = (L.length, L)
  panic_unchanged : ∀ debug op, Addressable Id (specStep op L).2 →
    ∀ e, (step debug op r).1 = .error e → (step debug op r).2 = r

theorem Inv.observes {r : Registry Id T} (hI : r.Inv) (hrt : Addressable Id r.flat) :
    r.Observes r.flat where
  len := hI.flat_length.symm
  isEmpty := by
    rw [isEmpty, ← hI.flat_length]
    cases r.flat with
    | nil => rfl
    | cons v vs => rfl
  index debug id := hI.readAt_eq debug (Identifier.intoUsize_le id)
  get debug id := by
    rw [← hI.readAt_eq debug (Identifier.intoUsize_le id), Registry.get]
    cases readAt debug r (intoUsize id) with
    | ok v => rfl
    | error e => rfl
  iter := rfl
  intoIter := rfl
  iterMut := hI.iterMut_reads
  ids := numbered_eq hrt
  serialize := by rw [Registry.serialize, hI.flat_length]
  panic_unchanged debug op hrt' := (hI.step_spec debug op hrt hrt').2.2.2

theorem step_simulates (debug : Bool) :
    SimulatesOn (Addressable Id) (fun (r : Registry Id T) L => r.Inv ∧ r.flat = L) (step debug)
      specStep Except.toOption := by
  rintro op r L ⟨hI, rfl⟩ hrt hrt'
  obtain ⟨hout, hI', hflat, -⟩ := hI.step_spec debug op hrt hrt'
  exact ⟨hout, hI', hflat⟩

theorem run_represents (debug : Bool) (ops : List (Op Id T))
    (hrt : Throughout (Addressable Id) specStep ops []) :
    (runOps (step debug) ops (empty : Registry Id T)).1.map Except.toOption =
        (runOps specStep ops []).1 ∧
      (runOps (step debug) ops (empty : Registry Id T)).2.Inv ∧
      (runOps (step debug) ops (empty : Registry Id T)).2.flat = (runOps specStep ops []).2 :=
  run_refines_on (step_simulates debug) ops (empty : Registry Id T) [] ⟨empty_inv, rfl⟩ hrt

/-- Every run from the empty registry answers as the list does, the registry it ends in is observed
to hold that list, and it compares equal to the result of another run exactly when the two lists
are equal. -/
theorem run_refines_flat_list [DecidableEq T] (debug : Bool) (ops others : List (Op Id T))
    (hops : Throughout (Addressable Id) specStep ops [])
    (hothers : Throughout (Addressable Id) specStep others []) :
    (runOps (step debug) ops (empty : Registry Id T)).1.map Except.toOption =
        (runOps specStep ops []).1 ∧
      (runOps (step debug) ops (empty : Registry Id T)).2.Observes (runOps specStep ops []).2 ∧
      ((runOps (step debug) ops (empty : Registry Id T)).2.eq
          (runOps (step debug) others (empty : Registry Id T)).2 = true ↔
        (runOps specStep ops []).2 = (runOps specStep others []).2) := by
  obtain ⟨houts, hI, hflat⟩ := run_represents debug ops hops
  obtain ⟨-, hI', hflat'⟩ := run_represents debug others hothers
  refine ⟨houts, ?_, ?_⟩
  · have hobs := hI.observes (by rw [hflat]; exact hops.last)
    rwa [hflat] at hobs
  · rw [hI.eq_iff hI', hflat, hflat']

/-- Four pushes, a truncation to one and a push equal two pushes, though one has an emptied chunk
left over. -/
theorem run_refines_flat_list_u32 :
    ((runOps (step false) [.push 7, .push 8, .push 9, .push 4, .truncate 1, .push 5]
        (empty : Registry (DerivedId .u32) Nat)).2.eq
        (runOps (step false) [.push 7, .push 5] (empty : Registry (DerivedId .u32) Nat)).2 = true ↔
      [7, 5] = [7, 5]) := by
  have small : ∀ {L : List Nat}, L.length ≤ 4 → Addressable (DerivedId .u32) L := by
    intro L hL n hn
    exact DerivedId.roundTrips_iff.2 (Nat.le_trans (Nat.le_of_lt hn) (Nat.le_trans hL (by decide)))
  refine (run_refines_flat_list false [.push 7, .push 8, .push 9, .push 4, .truncate 1, .push 5]
    [.push 7, .push 5] ?_ ?_).2.2
  · exact .cons (small (by decide)) <| .cons (small (by decide)) <| .cons (small (by decide)) <|
      .cons (small (by decide)) <| .cons (small (by decide)) <| .cons (small (by decide)) <|
      .nil (small (by decide))
  · exact .cons (small (by decide)) <| .cons (small (by decide)) <| .nil (small (by decide))

end Registry
end Jstd
