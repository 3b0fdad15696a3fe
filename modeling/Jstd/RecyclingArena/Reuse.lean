import Jstd.RecyclingArena.Refinement

/-!
# Reuse — what recycling slots gives

The arena opens a slot only when none is vacant, so over any run that does not clear it there are as
many slots as there ever were live values at once (`run_peak`).  And the stack of freed ids is last
in, first out: what is pushed after some removals takes the removed ids from the last to the first,
and leaves the rest of the arena, its free list included, as it was (`run_reuses_last_first`).
-/

namespace Jstd
namespace RecyclingArena

open Foundation

variable {Id T : Type} [Identifier Id] {a b : RecyclingArena Id T} {p : Pool Id T}

/-! ## Room -/

theorem Represents.slots_length (h : a.Represents p) : a.slots.length = p.slots.length := by
  rw [← abs_length, h.2]

theorem Represents.len_le (h : a.Represents p) : a.len ≤ a.slots.length := by
  calc a.len = a.abs.countP Option.isSome := h.1.live_eq
    _ ≤ a.abs.length := List.countP_le_length
    _ = a.slots.length := abs_length a

/-- With nothing on the free list every slot is live. -/
theorem Represents.full (h : a.Represents p) (hfreed : p.freed = []) : a.len = a.slots.length := by
  rw [← abs_length, len, h.1.live_eq, List.countP_eq_length]
  intro entry hentry
  obtain ⟨raw, hraw⟩ := List.mem_iff_getElem?.1 hentry
  rw [abs_getElem?] at hraw
  obtain ⟨slot, hslot, rfl⟩ := Option.map_eq_some_iff.1 hraw
  cases slot with
  | live value => rfl
  | free next =>
      have hmem := h.1.complete hslot
      rw [hfreed] at hmem
      cases hmem

/-- An operation opens a slot only if all slots are live afterwards. -/
theorem Represents.step_room (h : a.Represents p) {op : Op Id T} (hop : op ≠ .clear) :
    a.slots.length ≤ (step op a).2.slots.length ∧
      ((step op a).2.slots.length = a.slots.length ∨
        (step op a).2.len = (step op a).2.slots.length) := by
  have h' := (h.step_spec op).2.1
  rw [h'.slots_length, h.slots_length]
  have hsame : (specStep op p).2.slots.length = p.slots.length →
      p.slots.length ≤ (specStep op p).2.slots.length ∧
        ((specStep op p).2.slots.length = p.slots.length ∨
          (step op a).2.len = (specStep op p).2.slots.length) :=
    fun heq => ⟨Nat.le_of_eq heq.symm, .inl heq⟩
  cases op with
  | push value =>
      cases hfreed : p.freed with
      | cons id rest =>
          refine hsame ?_
          rw [specStep, hfreed]
          exact List.length_set
      | nil =>
          by_cases hrt : RoundTrips Id p.slots.length
          · -- The new slot is live, and so were all others.
            have hfull := h'.full (by simp only [specStep, hfreed, if_pos hrt])
            refine ⟨?_, .inr (hfull.trans h'.slots_length)⟩
            simp only [specStep, hfreed, if_pos hrt, List.length_append]
            exact Nat.le_add_right _ _
          · refine hsame ?_
            simp only [specStep, hfreed, if_neg hrt]
  | remove id =>
      refine hsame ?_
      rw [specStep]
      split
      · exact List.length_set
      · rfl
  | getMut id write => exact hsame (List.length_modify _ _ _)
  | indexMut id write =>
      refine hsame ?_
      rw [specStep]
      split
      · exact List.length_modify _ _ _
      · rfl
  | clear => exact absurd rfl hop

/-- From any arena on: no value count exceeds the slots of the end, and either the slots are those
of the start or some count reaches them. -/
theorem Represents.run_room (ops : List (Op Id T)) :
    ∀ {a : RecyclingArena Id T} {p : Pool Id T}, a.Represents p → (∀ op ∈ ops, op ≠ .clear) →
      a.slots.length ≤ (runOps step ops a).2.slots.length ∧
      (∀ k, (runOps step (ops.take k) a).2.len ≤ (runOps step ops a).2.slots.length) ∧
      ((runOps step ops a).2.slots.length = a.slots.length ∨
        ∃ k, (runOps step (ops.take k) a).2.len = (runOps step ops a).2.slots.length) := by
  induction ops with
  | nil =>
      intro a p h _
      refine ⟨Nat.le_refl _, fun k => ?_, .inl rfl⟩
      rw [List.take_nil]
      exact h.len_le
  | cons op ops ih =>
      intro a p h hops
      rw [List.forall_mem_cons] at hops
      obtain ⟨hle, hroom⟩ := h.step_room hops.1
      obtain ⟨hle', hbelow, hreach⟩ := ih (h.step_spec op).2.1 hops.2
      rw [runOps_cons]
      refine ⟨Nat.le_trans hle hle', fun k => ?_, ?_⟩
      · cases k with
        | zero => exact Nat.le_trans h.len_le (Nat.le_trans hle hle')
        | succ k => exact hbelow k
      -- The last slot opened is live at that point: here, or later in the run.
      · rcases hreach with heq | ⟨k, hk⟩
        · rcases hroom with heq' | hfull
          · exact .inl (heq.trans heq')
          · exact .inr ⟨1, hfull.trans heq.symm⟩
        · exact .inr ⟨k + 1, hk⟩

/-- Over a run from the empty arena without `clear`, the number of slots is the greatest number of
values that were live at once. -/
theorem run_peak {ops : List (Op Id T)} (hops : ∀ op ∈ ops, op ≠ .clear) :
    (∀ k, (runOps step (ops.take k) (empty : RecyclingArena Id T)).2.len ≤
        (runOps step ops (empty : RecyclingArena Id T)).2.slots.length) ∧
      ∃ k, (runOps step (ops.take k) (empty : RecyclingArena Id T)).2.len =
        (runOps step ops (empty : RecyclingArena Id T)).2.slots.length := by
  obtain ⟨-, hbelow, hreach⟩ := Represents.run_room ops
    (p := ⟨[], []⟩) (⟨empty_inv, rfl⟩ : (empty : RecyclingArena Id T).Represents _) hops
  refine ⟨hbelow, ?_⟩
  rcases hreach with heq | hreach
  · exact ⟨0, by rw [heq]; rfl⟩
  · exact hreach

/-- Three pushes around a removal need two slots. -/
theorem run_peak_pair :
    (runOps step [.push 7, .push 8, .remove ⟨0, by decide⟩, .push 9]
      (empty : RecyclingArena (DerivedId .u32) Nat)).2.slots.length = 2 ∧
      ∃ k, (runOps step
        (([.push 7, .push 8, .remove ⟨0, by decide⟩, .push 9] :
          List (Op (DerivedId .u32) Nat)).take k) empty).2.len = 2 := by
  refine ⟨rfl, (run_peak ?_).2⟩
  intro op hop heq
  subst heq
  simp at hop

/-! ## Last in, first out -/

/-- The ids a run issued. -/
def issued (outs : List (Option (Out Id T))) : List Id :=
  outs.filterMap fun
    | some (.id fresh) => some fresh
    | _ => none

/-- Removing live ids stacks them and vacates their slots. -/
theorem run_removes (ids : List Id) :
    ∀ p : Pool Id T, (ids.map intoUsize).Nodup →
      (∀ id ∈ ids, (p.slots[intoUsize id]?.join).isSome) →
      issued (runOps specStep (ids.map .remove) p).1 = [] ∧
        (runOps specStep (ids.map .remove) p).2.freed = ids.reverse ++ p.freed ∧
        (runOps specStep (ids.map .remove) p).2.slots.length = p.slots.length ∧
        ∀ raw : Nat, (runOps specStep (ids.map .remove) p).2.slots[raw]? =
          if raw ∈ ids.map intoUsize then some none else p.slots[raw]? := by
  induction ids with
  | nil =>
      intro p _ _
      exact ⟨rfl, rfl, rfl, fun raw => (if_neg List.not_mem_nil).symm⟩
  | cons id ids ih =>
      intro p hnodup hlive
      rw [List.map_cons, List.nodup_cons] at hnodup
      rw [List.forall_mem_cons] at hlive
      obtain ⟨value, hvalue⟩ := Option.isSome_iff_exists.1 hlive.1
      have hstep : specStep (.remove id) p = (some (.payload value),
          { slots := p.slots.set (intoUsize id) none, freed := id :: p.freed }) := by
        rw [specStep, hvalue]
      have hlt : intoUsize id < p.slots.length :=
        (List.getElem?_eq_some_iff.1 (Option.join_eq_some_iff.1 hvalue)).1
      -- The other ids are apart from `id`, so they are live still.
      obtain ⟨houts, hfreed, hsize, hslots⟩ := ih
        { slots := p.slots.set (intoUsize id) none, freed := id :: p.freed } hnodup.2 (by
          intro id' hid'
          have hne : intoUsize id ≠ intoUsize id' := fun heq =>
            hnodup.1 (heq ▸ List.mem_map_of_mem hid')
          rw [List.getElem?_set_ne hne]
          exact hlive.2 id' hid')
      rw [List.map_cons, runOps_cons, hstep]
      refine ⟨houts, ?_, hsize.trans List.length_set, fun raw => ?_⟩
      · rw [hfreed, List.reverse_cons, List.append_assoc, List.singleton_append]
      · rw [hslots, List.map_cons]
        by_cases hraw : raw ∈ ids.map intoUsize
        · rw [if_pos hraw, if_pos (List.mem_cons_of_mem _ hraw)]
        · by_cases heq : raw = intoUsize id
          · subst heq
            rw [if_neg hraw, if_pos List.mem_cons_self, List.getElem?_set_self hlt]
          · rw [if_neg hraw, if_neg (fun hmem => (List.mem_cons.1 hmem).elim heq hraw),
              List.getElem?_set_ne (Ne.symm heq)]

/-- Pushing takes ids off the stack, from the top, and fills their slots. -/
theorem run_pushes (values : List T) :
    ∀ (top rest : List Id) (slots : List (Option T)), top.length = values.length →
      (top.map intoUsize).Nodup → (∀ id ∈ top, intoUsize id < slots.length) →
      issued (runOps specStep (values.map .push) ⟨slots, top ++ rest⟩).1 = top ∧
        (runOps specStep (values.map .push) ⟨slots, top ++ rest⟩).2.freed = rest ∧
        (runOps specStep (values.map .push) ⟨slots, top ++ rest⟩).2.slots.length = slots.length ∧
        (∀ (i : Nat) id value, top[i]? = some id → values[i]? = some value →
          (runOps specStep (values.map .push) ⟨slots, top ++ rest⟩).2.slots[intoUsize id]? =
            some (some value)) ∧
        ∀ raw, raw ∉ top.map intoUsize →
          (runOps specStep (values.map .push) ⟨slots, top ++ rest⟩).2.slots[raw]? =
            slots[raw]? := by
  induction values with
  | nil =>
      intro top rest slots hlength _ _
      obtain rfl := List.length_eq_zero_iff.1 hlength
      exact ⟨rfl, rfl, rfl, fun i id value hid => by simp at hid, fun raw _ => rfl⟩
  | cons value values ih =>
      intro top rest slots hlength hnodup hlt
      cases top with
      | nil => cases hlength
      | cons id top =>
          rw [List.map_cons, List.nodup_cons] at hnodup
          rw [List.forall_mem_cons] at hlt
          obtain ⟨houts, hfreed, hsize, hnew, hold⟩ := ih top rest (slots.set (intoUsize id) (some value))
            (Nat.succ.inj hlength) hnodup.2 (fun id' hid' => by
              rw [List.length_set]
              exact hlt.2 id' hid')
          rw [List.map_cons, runOps_cons, List.cons_append]
          refine ⟨congrArg (id :: ·) houts, hfreed, hsize.trans List.length_set,
            fun i id' value' hid' hvalue' => ?_, fun raw hraw => ?_⟩
          · cases i with
            | zero =>
                cases hid'
                cases hvalue'
                -- The slot just filled is not among those filled later.
                exact (hold _ hnodup.1).trans (List.getElem?_set_self hlt.1)
            | succ i => exact hnew i id' value' hid' hvalue'
          · rw [List.map_cons, List.mem_cons, not_or] at hraw
            exact (hold raw hraw.2).trans (List.getElem?_set_ne (Ne.symm hraw.1))

/-- The pool after removals and as many pushes, when the free list is as before. -/
structure Swapped (ids : List Id) (values : List T) (p p' : Pool Id T) : Prop where
  freed : p'.freed = p.freed
  length : p'.slots.length = p.slots.length
  new : ∀ {i : Nat} {id value}, ids.reverse[i]? = some id → values[i]? = some value →
    p'.slots[intoUsize id]? = some (some value)
  old : ∀ {raw}, raw ∉ ids.map intoUsize → p'.slots[raw]? = p.slots[raw]?

theorem run_swap {ids : List Id} {values : List T} (hlength : values.length = ids.length)
    (hnodup : (ids.map intoUsize).Nodup)
    (hlive : ∀ id ∈ ids, (p.slots[intoUsize id]?.join).isSome) :
    issued (runOps specStep (ids.map .remove ++ values.map .push) p).1 = ids.reverse ∧
      Swapped ids values p (runOps specStep (ids.map .remove ++ values.map .push) p).2 := by
  rw [runOps_append]
  obtain ⟨hsilent, hfreed, hsize, hvacated⟩ := run_removes ids p hnodup hlive
  generalize runOps specStep (ids.map .remove) p = removed at hsilent hfreed hsize hvacated ⊢
  obtain ⟨outs, slots, freed⟩ := removed
  simp only at hsilent hfreed hsize hvacated
  subst hfreed
  -- Vacating moves no slot, so the ids stay in range.
  have hrange : ∀ id ∈ ids.reverse, intoUsize id < slots.length := by
    intro id hid
    rw [hsize]
    obtain ⟨value, hvalue⟩ := Option.isSome_iff_exists.1 (hlive id (List.mem_reverse.1 hid))
    exact (List.getElem?_eq_some_iff.1 (Option.join_eq_some_iff.1 hvalue)).1
  have hnodup' : (ids.reverse.map intoUsize).Nodup := by
    rwa [List.map_reverse, List.nodup_reverse]
  obtain ⟨hissued, hrest, hsize', hnew, hold⟩ := run_pushes values ids.reverse p.freed slots
    (by rw [List.length_reverse, hlength]) hnodup' hrange
  refine ⟨?_, hrest, hsize'.trans hsize, fun hid hvalue => hnew _ _ _ hid hvalue,
    fun {raw} hraw => ?_⟩
  · rw [issued, List.filterMap_append]
    change issued outs ++ issued _ = _
    rw [hsilent, hissued, List.nil_append]
  · rw [hold raw (by rwa [List.map_reverse, List.mem_reverse]), hvacated, if_neg hraw]

/-- The same slots are live. -/
theorem Swapped.countP_eq {ids : List Id} {values : List T} {p' : Pool Id T}
    (h : Swapped ids values p p') (hlength : values.length = ids.length)
    (hlive : ∀ id ∈ ids, (p.slots[intoUsize id]?.join).isSome) :
    p'.slots.countP Option.isSome = p.slots.countP Option.isSome := by
  have hsame : p'.slots.map Option.isSome = p.slots.map Option.isSome := by
    refine List.ext_getElem? fun raw => ?_
    rw [List.getElem?_map, List.getElem?_map]
    by_cases hraw : raw ∈ ids.map intoUsize
    · obtain ⟨id, hid, rfl⟩ := List.mem_map.1 hraw
      obtain ⟨i, hi⟩ := List.mem_iff_getElem?.1 (List.mem_reverse.2 hid)
      have hlt : i < values.length := by
        rw [hlength, ← List.length_reverse]
        exact (List.getElem?_eq_some_iff.1 hi).1
      obtain ⟨old, hold⟩ := Option.isSome_iff_exists.1 (hlive id hid)
      rw [h.new hi (List.getElem?_eq_getElem hlt), Option.join_eq_some_iff.1 hold]
      rfl
    · rw [h.old hraw]
  calc p'.slots.countP Option.isSome
      = (p'.slots.map Option.isSome).countP (fun live => live) := by rw [List.countP_map]; rfl
    _ = (p.slots.map Option.isSome).countP (fun live => live) := by rw [hsame]
    _ = p.slots.countP Option.isSome := by rw [List.countP_map]; rfl

/-- The free list starts at the top of the stack. -/
theorem FreeChain.head {slots : List (Slot Id T)} {head : Option Id} {ids : List Id}
    (h : FreeChain slots head ids) : head = ids.head? := by
  cases h with
  | nil => rfl
  | cons _ _ => rfl

variable {before : List (Op Id T)} {outs outs' : List (Except Panic (Out Id T))}

/-- Whatever came before: remove some live ids and push as many values.  The pushes issue the removed
ids from the last to the first, each for its value; every other id shows what it showed, and the
arena is as large and its free list starts where it did. -/
theorem run_reuses_last_first {ids : List Id} {values : List T}
    (hbefore : runOps step before (empty : RecyclingArena Id T) = (outs, a))
    (hlength : values.length = ids.length) (hnodup : (ids.map intoUsize).Nodup)
    (hlive : ∀ id ∈ ids, a.contains id = true)
    (hrun : runOps step (ids.map .remove ++ values.map .push) a = (outs', b)) :
    issued (outs'.map Except.toOption) = ids.reverse ∧
      (∀ (i : Nat) id value, ids.reverse[i]? = some id → values[i]? = some value →
        b.get id = some ⟨id, value⟩) ∧
      (∀ id, intoUsize id ∉ ids.map intoUsize → b.get id = a.get id) ∧
      b.len = a.len ∧ b.slots.length = a.slots.length ∧ b.free = a.free := by
  -- Any arena a run leads to represents some pool.
  obtain ⟨p, ha⟩ : ∃ p, a.Represents p := by
    have h := (run_refines step_simulates before (empty : RecyclingArena Id T)
      { slots := [], freed := [] } ⟨empty_inv, rfl⟩).2
    rw [hbefore] at h
    exact ⟨_, h⟩
  obtain ⟨houts, hb⟩ := run_refines step_simulates (ids.map .remove ++ values.map .push) a p ha
  rw [hrun] at houts hb
  have hoa := ha.observes
  have hob := hb.observes
  have hlive' : ∀ id ∈ ids, (p.slots[intoUsize id]?.join).isSome := by
    intro id hid
    rw [← hoa.contains]
    exact hlive id hid
  obtain ⟨hissued, hswap⟩ := run_swap hlength hnodup hlive'
  refine ⟨houts ▸ hissued, fun i id value hid hvalue => ?_, fun id hid => ?_, ?_, ?_, ?_⟩
  · rw [hob.get, hswap.new hid hvalue]
    rfl
  · rw [hoa.get, hob.get, hswap.old hid]
  · rw [hoa.len, hob.len, hswap.countP_eq hlength hlive']
  · rw [hb.slots_length, ha.slots_length, hswap.length]
  · rw [hb.1.chain.head, ha.1.chain.head, hswap.freed]

/-- Two of three ids are removed and taken again. -/
theorem run_reuses_last_first_pair :
    ∃ a b : RecyclingArena (DerivedId .u32) Nat, ∃ outs outs',
      runOps step [.push 7, .push 8, .push 9] empty = (outs, a) ∧
        runOps step [.remove ⟨0, by decide⟩, .remove ⟨2, by decide⟩, .push 5, .push 6] a =
          (outs', b) ∧
        b.get ⟨2, by decide⟩ = some ⟨⟨2, by decide⟩, 5⟩ ∧ b.free = a.free := by
  refine ⟨_, _, _, _, rfl, rfl, ?_⟩
  obtain ⟨-, hnew, -, -, -, hfree⟩ := @run_reuses_last_first (DerivedId .u32) Nat _ _ _
    [.push 7, .push 8, .push 9] _ _ [⟨0, by decide⟩, ⟨2, by decide⟩] [5, 6] rfl rfl (by decide)
    (by decide) rfl
  exact ⟨hnew 0 _ _ rfl rfl, hfree⟩

end RecyclingArena
end Jstd
