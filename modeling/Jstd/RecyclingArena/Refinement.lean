import Jstd.Foundation.OptionList
import Jstd.Foundation.Simulation
import Jstd.RecyclingArena.Basic

/-!
# RecyclingArena refines a list of optional values and a stack

The abstract pool is a list with one optional value for every slot, together with the stack of
freed ids.  The invariant ties the stack to the intrusive list: following `free` through the `Free`
links spells out exactly the stack, which names every vacant slot once and no live one.
-/

namespace Jstd
namespace RecyclingArena

open Foundation

variable {Id T : Type} [Identifier Id]

/-! ## The intrusive list -/

/-- Following the links from `head` visits the slots of `ids` in order, all vacant, and ends. -/
inductive FreeChain (slots : List (Slot Id T)) : Option Id → List Id → Prop
  | nil : FreeChain slots none []
  | cons {id : Id} {next : Option Id} {ids : List Id} :
      slots[intoUsize id]? = some (.free next) → FreeChain slots next ids →
      FreeChain slots (some id) (id :: ids)

namespace FreeChain

variable {slots slots' : List (Slot Id T)} {head : Option Id} {ids : List Id}

/-- A chain survives every change away from its own slots. -/
theorem frame (h : FreeChain slots head ids)
    (hsame : ∀ id ∈ ids, slots'[intoUsize id]? = slots[intoUsize id]?) :
    FreeChain slots' head ids := by
  induction h with
  | nil => exact .nil
  | cons hslot _ ih =>
      refine .cons ?_ (ih fun id hid => hsame id (List.mem_cons_of_mem _ hid))
      rw [hsame _ List.mem_cons_self]
      exact hslot

theorem vacant (h : FreeChain slots head ids) :
    ∀ id ∈ ids, ∃ next, slots[intoUsize id]? = some (.free next) := by
  induction h with
  | nil =>
      intro id hid
      cases hid
  | cons hslot _ ih =>
      intro id hid
      rcases List.mem_cons.1 hid with rfl | hid
      · exact ⟨_, hslot⟩
      · exact ih id hid

end FreeChain

/-! ## The abstract pool -/

/-- Optional values, and the freed ids with the most recent one first. -/
structure Pool (Id T : Type) where
  slots : List (Option T)
  freed : List Id

def abs (a : RecyclingArena Id T) : List (Option T) :=
  a.slots.map Slot.payload

omit [Identifier Id] in
@[simp] theorem abs_length (a : RecyclingArena Id T) : a.abs.length = a.slots.length := by
  simp [abs]

omit [Identifier Id] in
theorem abs_getElem? (a : RecyclingArena Id T) (raw : Nat) :
    a.abs[raw]? = a.slots[raw]?.map Slot.payload := by
  simp [abs]

omit [Identifier Id] in
theorem abs_eq_some {a : RecyclingArena Id T} {raw : Nat} {v : T} :
    (a.abs[raw]?).join = some v ↔ a.slots[raw]? = some (.live v) := by
  rw [abs_getElem?]
  cases h : a.slots[raw]? with
  | none => simp
  | some slot => cases slot <;> simp [Slot.payload]

omit [Identifier Id] in
theorem abs_eq_none {a : RecyclingArena Id T} {raw : Nat} :
    (a.abs[raw]?).join = none ↔
      a.slots[raw]? = none ∨ ∃ next, a.slots[raw]? = some (.free next) := by
  rw [abs_getElem?]
  cases h : a.slots[raw]? with
  | none => simp
  | some slot => cases slot <;> simp [Slot.payload]

/-- The free list is exact: it is the stack, it repeats no slot, and it misses no vacant one. -/
structure Inv (a : RecyclingArena Id T) (freed : List Id) : Prop where
  chain : FreeChain a.slots a.free freed
  nodup : (freed.map intoUsize).Nodup
  complete : ∀ {raw : Nat} {next : Option Id}, a.slots[raw]? = some (.free next) →
    raw ∈ freed.map intoUsize
  live_eq : a.live = a.abs.countP Option.isSome
  roundTrips : ∀ {raw : Nat}, raw < a.slots.length → RoundTrips Id raw

/-! ## Reading -/

theorem contains_eq (a : RecyclingArena Id T) (id : Id) :
    a.contains id = ((a.abs[intoUsize id]?).join).isSome := by
  unfold contains
  rw [abs_getElem?]
  cases h : a.slots[intoUsize id]? with
  | none => rfl
  | some slot => cases slot <;> rfl

theorem get_eq (a : RecyclingArena Id T) (id : Id) :
    a.get id = (a.abs[intoUsize id]?).join.map (Identified.mk id) := by
  unfold get
  rw [abs_getElem?]
  cases h : a.slots[intoUsize id]? with
  | none => rfl
  | some slot => cases slot <;> rfl

theorem index_eq (a : RecyclingArena Id T) (id : Id) :
    (a.index id).toOption = (a.abs[intoUsize id]?).join := by
  unfold RecyclingArena.index
  rw [get_eq]
  cases h : (a.abs[intoUsize id]?).join with
  | none => rfl
  | some v => rfl

/-- Iteration yields the live entries in slot order. -/
theorem iter_eq (a : RecyclingArena Id T) :
    a.iter = (entries a.abs).map Identified.ofEntry := by
  have main : ∀ (slots : List (Slot Id T)) (k : Nat),
      ((slots.zipIdx k).filterMap fun p =>
        p.1.payload.map fun value => (⟨fromUsize p.2, value⟩ : Identified Id T)) =
        (entriesFrom k (slots.map Slot.payload)).map Identified.ofEntry := by
    intro slots
    induction slots with
    | nil =>
        intro k
        rfl
    | cons slot slots ih =>
        intro k
        cases slot with
        | live value =>
            rw [List.zipIdx_cons, List.filterMap_cons, ih (k + 1)]
            rfl
        | free next =>
            rw [List.zipIdx_cons, List.filterMap_cons, ih (k + 1)]
            rfl
  refine Eq.trans ?_ (main a.slots 0)
  apply List.filterMap_congr
  rintro ⟨slot, raw⟩ _
  cases slot with
  | live value => rfl
  | free next => rfl

/-! ## Writing -/

/-- Filling the most recently freed slot. -/
theorem Inv.push_reuse {a : RecyclingArena Id T} {id : Id} {rest : List Id}
    (hI : a.Inv (id :: rest)) (value : T) :
    ∃ a', (push value).run a = (.ok id, a') ∧ a'.Inv rest ∧
      a'.abs = a.abs.set (intoUsize id) (some value) := by
  obtain ⟨next, hfree, hslot, hrest⟩ : ∃ next, a.free = some id ∧
      a.slots[intoUsize id]? = some (.free next) ∧ FreeChain a.slots next rest := by
    have hchain := hI.chain
    cases h : a.free with
    | none =>
        rw [h] at hchain
        cases hchain
    | some head =>
        rw [h] at hchain
        cases hchain with
        | cons hslot hrest => exact ⟨_, rfl, hslot, hrest⟩
  -- The rest of the chain does not run through the slot that is filled.
  have hnotin : intoUsize id ∉ rest.map intoUsize := (List.nodup_cons.1 hI.nodup).1
  have hlt := (List.getElem?_eq_some_iff.1 hslot).1
  have habs : List.map Slot.payload (a.slots.set (intoUsize id) (.live value)) =
      a.abs.set (intoUsize id) (some value) := by
    rw [List.map_set]
    rfl
  refine ⟨{ slots := a.slots.set (intoUsize id) (.live value), free := next,
            live := a.live + 1 }, ?_, ?_, habs⟩
  · rw [push, Method.run_bind_get, hfree]
    simp only [index_of_getElem? hslot]
    rfl
  · exact
      { chain := by
          refine hrest.frame ?_
          intro id' hid'
          have hne : intoUsize id ≠ intoUsize id' := by
            intro heq
            exact hnotin (heq ▸ List.mem_map_of_mem hid')
          exact List.getElem?_set_ne hne
        nodup := (List.nodup_cons.1 hI.nodup).2
        complete := by
          intro raw next' hraw
          by_cases hne : intoUsize id = raw
          · subst hne
            rw [List.getElem?_set_self hlt] at hraw
            cases hraw
          · rw [List.getElem?_set_ne hne] at hraw
            rcases List.mem_cons.1 (hI.complete hraw) with heq | hmem
            · exact absurd heq.symm hne
            · exact hmem
        live_eq := by
          have hnone : a.abs[intoUsize id]? = some none := by
            rw [abs_getElem?, hslot]
            rfl
          show a.live + 1 = List.countP _ (List.map _ _)
          rw [habs, countP_set_some hnone, hI.live_eq]
        roundTrips := by
          intro raw hraw
          exact hI.roundTrips (by simpa using hraw) }

/-- With no freed slot, `push` opens a new one. -/
theorem Inv.push_fresh {a : RecyclingArena Id T} (hI : a.Inv []) (value : T)
    (hrt : RoundTrips Id a.slots.length) :
    ∃ a', (push value).run a = (.ok (fromUsize a.slots.length), a') ∧ a'.Inv [] ∧
      a'.abs = a.abs ++ [some value] := by
  have hfree : a.free = none := by
    have hchain := hI.chain
    cases h : a.free with
    | none => rfl
    | some head =>
        rw [h] at hchain
        cases hchain
  have hrt' : intoUsize (fromUsize a.slots.length : Id) = a.slots.length := hrt
  have habs : List.map Slot.payload (a.slots ++ [.live value]) = a.abs ++ [some value] := by
    rw [List.map_append]
    rfl
  refine ⟨{ slots := a.slots ++ [.live value], free := none, live := a.live + 1 },
    ?_, ?_, habs⟩
  · rw [push, Method.run_bind_get, hfree]
    simp only [hrt', Method.require, if_true]
    cases a
    cases hfree
    rfl
  · exact
      { chain := .nil
        nodup := by simp
        complete := by
          intro raw next hraw
          rw [List.getElem?_append] at hraw
          split at hraw
          · exact hI.complete hraw
          · rw [List.getElem?_singleton] at hraw
            split at hraw <;> cases hraw
        live_eq := by
          show a.live + 1 = List.countP _ (List.map _ _)
          rw [habs, List.countP_append, hI.live_eq]
          rfl
        roundTrips := by
          intro raw hraw
          simp only [List.length_append, List.length_singleton] at hraw
          rcases Nat.lt_succ_iff_lt_or_eq.1 hraw with h | rfl
          · exact hI.roundTrips h
          · exact hrt }

theorem Inv.push_exhausted {a : RecyclingArena Id T} (hI : a.Inv []) (value : T)
    (hrt : ¬ RoundTrips Id a.slots.length) : ∃ e, (push value).run a = (.error e, a) := by
  have hfree : a.free = none := by
    have hchain := hI.chain
    cases h : a.free with
    | none => rfl
    | some head =>
        rw [h] at hchain
        cases hchain
  have hrt' : ¬ intoUsize (fromUsize a.slots.length : Id) = a.slots.length := hrt
  rw [push, Method.run_bind_get, hfree]
  simp only [hrt', Method.require, if_false]
  exact ⟨_, rfl⟩

theorem Inv.remove_spec {a : RecyclingArena Id T} {freed : List Id} (hI : a.Inv freed) {id : Id}
    {v : T} (h : (a.abs[intoUsize id]?).join = some v) :
    ∃ a', (remove id).run a = (.ok v, a') ∧ a'.Inv (id :: freed) ∧
      a'.abs = a.abs.set (intoUsize id) none := by
  have hslot := abs_eq_some.1 h
  have hlt := (List.getElem?_eq_some_iff.1 hslot).1
  -- Every id on the stack has a vacant slot, and this one is live.
  have hfresh : intoUsize id ∉ freed.map intoUsize := by
    intro hmem
    obtain ⟨id', hid', heq⟩ := List.mem_map.1 hmem
    obtain ⟨next, hnext⟩ := hI.chain.vacant id' hid'
    rw [heq, hslot] at hnext
    cases hnext
  have habs : List.map Slot.payload (a.slots.set (intoUsize id) (.free a.free)) =
      a.abs.set (intoUsize id) none := by
    rw [List.map_set]
    rfl
  refine ⟨{ slots := a.slots.set (intoUsize id) (.free a.free), free := some id,
            live := a.live - 1 }, ?_, ?_, habs⟩
  · rw [remove, Method.run_bind_get]
    simp only [index_of_getElem? hslot]
    rfl
  · exact
      { chain := by
          refine .cons (List.getElem?_set_self hlt) (hI.chain.frame ?_)
          intro id' hid'
          have hne : intoUsize id ≠ intoUsize id' := by
            intro heq
            exact hfresh (heq ▸ List.mem_map_of_mem hid')
          exact List.getElem?_set_ne hne
        nodup := List.nodup_cons.2 ⟨hfresh, hI.nodup⟩
        -- The vacant slots are those of before and the one just freed.
        complete := by
          intro raw next hraw
          by_cases hne : intoUsize id = raw
          · exact hne ▸ List.mem_cons_self
          · rw [List.getElem?_set_ne hne] at hraw
            exact List.mem_cons_of_mem _ (hI.complete hraw)
        live_eq := by
          have hsome : a.abs[intoUsize id]? = some (some v) := Option.join_eq_some_iff.1 h
          show a.live - 1 = List.countP _ (List.map _ _)
          rw [habs, countP_set_none hsome, hI.live_eq]
        roundTrips := by
          intro raw hraw
          exact hI.roundTrips (by simpa using hraw) }

/-- `remove` panics on every id that is not live, before it touches a field. -/
theorem remove_dead {a : RecyclingArena Id T} {id : Id}
    (h : (a.abs[intoUsize id]?).join = none) : ∃ e, (remove id).run a = (.error e, a) := by
  rw [remove, Method.run_bind_get]
  rcases abs_eq_none.1 h with hnone | ⟨next, hfree⟩
  · rw [index_of_none hnone]
    exact ⟨_, rfl⟩
  · rw [index_of_getElem? hfree]
    exact ⟨_, rfl⟩

theorem Inv.getMut_spec {a : RecyclingArena Id T} {freed : List Id} (hI : a.Inv freed) (id : Id)
    (write : T → T) :
    ∃ a', (getMut id write).run a =
        (.ok ((a.abs[intoUsize id]?).join.map (Identified.mk id)), a') ∧
      a'.Inv freed ∧ a'.abs = a.abs.modify (intoUsize id) (Option.map write) ∧
      ((a.abs[intoUsize id]?).join = none → a' = a) := by
  rw [getMut, Method.run_bind_get]
  cases h : (a.abs[intoUsize id]?).join with
  | none =>
      refine ⟨a, ?_, hI, ?_, fun _ => rfl⟩
      · rcases abs_eq_none.1 h with hnone | ⟨next, hfree⟩
        · rw [hnone]
          rfl
        · rw [hfree]
          rfl
      · exact (modify_of_vacant write h).symm
  | some v =>
      have hslot := abs_eq_some.1 h
      have hlt := (List.getElem?_eq_some_iff.1 hslot).1
      have habs : List.map Slot.payload (a.slots.set (intoUsize id) (.live (write v))) =
          a.abs.modify (intoUsize id) (Option.map write) := by
        rw [modify_of_occupied write (Option.join_eq_some_iff.1 h), List.map_set]
        rfl
      refine ⟨{ a with slots := a.slots.set (intoUsize id) (.live (write v)) }, ?_, ?_, habs,
        by simp⟩
      · rw [hslot]
        rfl
      · exact
          -- A live slot stays live: the chain never met it.
          { chain := by
              refine hI.chain.frame ?_
              intro id' hid'
              obtain ⟨next, hnext⟩ := hI.chain.vacant id' hid'
              have hne : intoUsize id ≠ intoUsize id' := by
                intro heq
                rw [← heq, hslot] at hnext
                cases hnext
              exact List.getElem?_set_ne hne
            nodup := hI.nodup
            complete := by
              intro raw next hraw
              by_cases hne : intoUsize id = raw
              · subst hne
                rw [List.getElem?_set_self hlt] at hraw
                cases hraw
              · rw [List.getElem?_set_ne hne] at hraw
                exact hI.complete hraw
            live_eq := by
              show a.live = List.countP _ (List.map _ _)
              rw [habs, countP_modify, hI.live_eq]
            roundTrips := by
              intro raw hraw
              exact hI.roundTrips (by simpa using hraw) }

/-! ## Operations and their meaning on a pool -/

/-- The mutating operations of the arena. -/
inductive Op (Id T : Type)
  | push (value : T)
  | remove (id : Id)
  | getMut (id : Id) (write : T → T)
  | indexMut (id : Id) (write : T → T)
  | clear

/-- What an operation returns. -/
inductive Out (Id T : Type)
  | id (id : Id)
  | payload (value : T)
  | entry (entry : Option (Identified Id T))
  | unit

/-- One operation of the real arena; a panic leaves some arena behind as well. -/
def step (op : Op Id T) (a : RecyclingArena Id T) :
    Except Panic (Out Id T) × RecyclingArena Id T :=
  match op with
  | .push value => (Out.id <$> push value).run a
  | .remove id => (Out.payload <$> remove id).run a
  | .getMut id write => (Out.entry <$> getMut id write).run a
  | .indexMut id write => (Out.payload <$> indexMut id write).run a
  | .clear => ((fun _ => Out.unit) <$> clear).run a

/-- The same operation on the pool; `none` is a panic, which changes nothing.  `push` takes the
most recently freed id, and opens a new slot only when there is none; it panics when the identifier
type does not round-trip on the index of that new slot. -/
def specStep (op : Op Id T) (p : Pool Id T) : Option (Out Id T) × Pool Id T :=
  match op with
  | .push value =>
      -- The most recently freed id comes back first.
      match p.freed with
      | id :: rest =>
          (some (.id id), { slots := p.slots.set (intoUsize id) (some value), freed := rest })
      | [] =>
          if RoundTrips Id p.slots.length then
            (some (.id (fromUsize p.slots.length)),
              { slots := p.slots ++ [some value], freed := [] })
          else (none, p)
  | .remove id =>
      match p.slots[intoUsize id]?.join with
      | some value =>
          (some (.payload value),
            { slots := p.slots.set (intoUsize id) none, freed := id :: p.freed })
      | none => (none, p)
  | .getMut id write =>
      (some (.entry (p.slots[intoUsize id]?.join.map (Identified.mk id))),
        { p with slots := p.slots.modify (intoUsize id) (Option.map write) })
  | .indexMut id write =>
      match p.slots[intoUsize id]?.join with
      | some value =>
          (some (.payload value),
            { p with slots := p.slots.modify (intoUsize id) (Option.map write) })
      | none => (none, p)
  | .clear => (some .unit, { slots := [], freed := [] })

/-! ## Runs -/

theorem empty_inv : (empty : RecyclingArena Id T).Inv [] where
  chain := .nil
  nodup := List.nodup_nil
  complete := by
    intro raw next hraw
    simp [empty] at hraw
  live_eq := rfl
  roundTrips := by
    intro raw hraw
    exact absurd hraw (Nat.not_lt_zero _)

/-- The arena represents the pool. -/
def Represents (a : RecyclingArena Id T) (p : Pool Id T) : Prop :=
  a.Inv p.freed ∧ a.abs = p.slots

/-- One operation answers as the pool does, keeps the free list exact, and leaves the arena as it
was when it panics. -/
theorem Represents.step_spec {a : RecyclingArena Id T} {p : Pool Id T} (h : a.Represents p)
    (op : Op Id T) :
    (step op a).1.toOption = (specStep op p).1 ∧ (step op a).2.Represents (specStep op p).2 ∧
      ∀ e, (step op a).1 = .error e → (step op a).2 = a := by
  obtain ⟨slots, freed⟩ := p
  obtain ⟨hI, rfl⟩ := h
  cases op with
  | push value =>
      simp only [step, specStep, Method.run_map, abs_length]
      cases freed with
      | cons id rest =>
          -- The identifier freed last is issued again.
          obtain ⟨a', hrun, hI', habs⟩ := hI.push_reuse value
          rw [hrun]
          exact ⟨rfl, ⟨hI', habs⟩, by simp [Except.map]⟩
      | nil =>
          by_cases hrt : RoundTrips Id a.slots.length
          · obtain ⟨a', hrun, hI', habs⟩ := hI.push_fresh value hrt
            simp only [hrun, hrt, if_true]
            exact ⟨rfl, ⟨hI', habs⟩, by simp [Except.map]⟩
          · -- No identifier is left for another slot: the push panics first.
            obtain ⟨e, hrun⟩ := hI.push_exhausted value hrt
            simp only [hrun, hrt, if_false]
            exact ⟨rfl, ⟨hI, rfl⟩, fun _ _ => trivial⟩
  | remove id =>
      simp only [step, specStep, Method.run_map]
      cases hv : (a.abs[intoUsize id]?).join with
      | none =>
          obtain ⟨e, hrun⟩ := remove_dead hv
          rw [hrun]
          exact ⟨rfl, ⟨hI, rfl⟩, fun _ _ => rfl⟩
      | some v =>
          obtain ⟨a', hrun, hI', habs⟩ := hI.remove_spec hv
          rw [hrun]
          exact ⟨rfl, ⟨hI', habs⟩, by simp [Except.map]⟩
  | getMut id write =>
      obtain ⟨a', hrun, hI', habs, -⟩ := hI.getMut_spec id write
      simp only [step, specStep, Method.run_map, hrun]
      exact ⟨rfl, ⟨hI', habs⟩, by simp [Except.map]⟩
  | indexMut id write =>
      obtain ⟨a', hrun, hI', habs, hsame⟩ := hI.getMut_spec id write
      simp only [step, specStep, Method.run_map]
      rw [indexMut, Method.run_bind_of_ok hrun]
      cases hv : (a.abs[intoUsize id]?).join with
      | none =>
          obtain rfl := hsame hv
          exact ⟨rfl, ⟨hI, rfl⟩, fun _ _ => rfl⟩
      | some v =>
          refine ⟨rfl, ⟨hI', habs⟩, ?_⟩
          intro e he
          cases he
  | clear =>
      exact ⟨rfl, ⟨empty_inv, rfl⟩, by simp [step, Method.run_map, clear, Except.map]⟩

/-- What the arena's own methods report agrees with the pool `p`. -/
structure Observes (a : RecyclingArena Id T) (p : Pool Id T) : Prop where
  get : ∀ id, a.get id = p.slots[intoUsize id]?.join.map (Identified.mk id)
  contains : ∀ id, a.contains id = p.slots[intoUsize id]?.join.isSome
  index : ∀ id, (a.index id).toOption = p.slots[intoUsize id]?.join
  len : a.len = p.slots.countP Option.isSome
  isEmpty : a.isEmpty = true ↔ ∀ slot ∈ p.slots, slot = none
  iter : a.iter = (entries p.slots).map Identified.ofEntry
  /-- Following `free` visits the stack's slots, each once, and ends. -/
  chain : FreeChain a.slots a.free p.freed
  nodup : (p.freed.map intoUsize).Nodup
  /-- The slots visited are exactly the vacant ones. -/
  exact : ∀ raw, raw ∈ p.freed.map intoUsize ↔ ∃ next, a.slots[raw]? = some (.free next)
  live : a.live = a.abs.countP Option.isSome
  /-- An id handed out was not live, and every other live id keeps its payload. -/
  push_vacant : ∀ value id, (step (.push value) a).1 = .ok (.id id) →
    a.contains id = false ∧
      ∀ id', intoUsize id' ≠ intoUsize id → (step (.push value) a).2.get id' = a.get id'
  panic_unchanged : ∀ op e, (step op a).1 = .error e → (step op a).2 = a

theorem Represents.push_vacant {a : RecyclingArena Id T} {p : Pool Id T} (h : a.Represents p)
    {value : T} {id : Id} (hpush : (step (.push value) a).1 = .ok (.id id)) :
    a.contains id = false ∧
      ∀ id', intoUsize id' ≠ intoUsize id → (step (.push value) a).2.get id' = a.get id' := by
  obtain ⟨hout, ⟨-, habs⟩, -⟩ := h.step_spec (.push value)
  rw [hpush] at hout
  obtain ⟨slots, freed⟩ := p
  obtain ⟨hI, rfl⟩ := h
  -- The slot comes off the stack, or a new one opens.
  cases freed with
  | cons head rest =>
      simp only [specStep, Except.toOption, Option.some.injEq, Out.id.injEq] at hout habs
      subst hout
      obtain ⟨next, hslot⟩ := hI.chain.vacant _ List.mem_cons_self
      refine ⟨by rw [contains_eq, abs_eq_none.2 (.inr ⟨next, hslot⟩)]; rfl, ?_⟩
      intro id' hne
      rw [get_eq, get_eq, habs, List.getElem?_set_ne (Ne.symm hne)]
  | nil =>
      simp only [specStep, Except.toOption] at hout habs
      split at hout
      · rename_i hrt
        rw [if_pos hrt] at habs
        simp only [abs_length, Option.some.injEq, Out.id.injEq] at hout hrt habs
        subst hout
        have hrt' : intoUsize (fromUsize a.slots.length : Id) = a.slots.length := hrt
        refine ⟨by rw [contains_eq, hrt', abs_eq_none.2 (.inl (by simp))]; rfl, ?_⟩
        intro id' hne
        rw [hrt'] at hne
        rw [get_eq, get_eq, habs, List.getElem?_append, abs_length]
        split
        · rfl
        · rw [List.getElem?_singleton, if_neg (by omega),
            List.getElem?_eq_none (by rw [abs_length]; omega)]
      · cases hout

theorem Represents.observes {a : RecyclingArena Id T} {p : Pool Id T} (h : a.Represents p) :
    a.Observes p where
  get id := by rw [← h.2, get_eq]
  contains id := by rw [← h.2, contains_eq]
  index id := by rw [← h.2, index_eq]
  len := by rw [← h.2]; exact h.1.live_eq
  isEmpty := by
    rw [← h.2]
    calc a.isEmpty = true
      _ ↔ a.live = 0 := by rw [isEmpty, beq_iff_eq]
      _ ↔ ∀ slot ∈ a.abs, slot = none := by rw [h.1.live_eq, countP_eq_zero]
  iter := by rw [← h.2, iter_eq]
  chain := h.1.chain
  nodup := h.1.nodup
  exact raw := by
    constructor
    · intro hmem
      obtain ⟨id, hid, rfl⟩ := List.mem_map.1 hmem
      exact h.1.chain.vacant id hid
    · rintro ⟨next, hnext⟩
      exact h.1.complete hnext
  live := h.1.live_eq
  push_vacant _ _ := h.push_vacant
  panic_unchanged op := (h.step_spec op).2.2

theorem step_simulates :
    Simulates (Represents : RecyclingArena Id T → Pool Id T → Prop) step specStep Except.toOption := by
  intro op a p h _ _
  obtain ⟨hout, hnext, -⟩ := h.step_spec op
  exact ⟨hout, hnext⟩

/-- Every run from the empty arena answers as the pool does, and the arena it ends in is observed
to hold that pool, with an exact free list. -/
theorem run_refines_pool (ops : List (Op Id T)) :
    (runOps step ops (empty : RecyclingArena Id T)).1.map Except.toOption =
        (runOps specStep ops { slots := [], freed := [] }).1 ∧
      (runOps step ops (empty : RecyclingArena Id T)).2.Observes
        (runOps specStep ops { slots := [], freed := [] }).2 := by
  obtain ⟨houts, hrep⟩ :=
    run_refines step_simulates ops (empty : RecyclingArena Id T) { slots := [], freed := [] }
      ⟨empty_inv, rfl⟩
  exact ⟨houts, hrep.observes⟩

/-- Two removals and a push: the slot freed last is filled first. -/
example :
    (runOps step [.push 7, .push 8, .push 9, .remove ⟨1, by decide⟩, .remove ⟨0, by decide⟩,
      .push 5] (empty : RecyclingArena (DerivedId .u32) Nat)).2 =
        { slots := [.live 5, .free none, .live 9], free := some ⟨1, by decide⟩, live := 2 } := by
  decide

end RecyclingArena
end Jstd
