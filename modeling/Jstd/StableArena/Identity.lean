import Jstd.StableArena.Refinement

/-!
# Identity — an identifier means one value for ever

The arena promises identifiers that are never reused.  Only `clear` and `truncate_issued` take ids
back, and their documentation says so.  Any run without them issues the next ids in order, never
revives a dead one, and leaves what an id names alone unless an operation is given that id.

`Later` says this of two lists of optional values; it is reflexive and transitive, every operation
satisfies it, and the arena refines the list.
-/

namespace Jstd
namespace StableArena

open Foundation

variable {Id T : Type} [Identifier Id]

/-- The operations that take no id back. -/
def Op.Retains : Op Id T → Prop
  | .clear => False
  | .truncateIssued _ => False
  | _ => True

/-- The operation is given this id. -/
def Op.Names (id : Id) : Op Id T → Prop
  | .remove id' => intoUsize id' = intoUsize id
  | .getMut id' _ => intoUsize id' = intoUsize id
  | .indexMut id' _ => intoUsize id' = intoUsize id
  | _ => False

/-- The id that an operation issued. -/
def Out.issued? : Out Id T → Option Id
  | .id fresh => some fresh
  | _ => none

/-- The ids a run issued. -/
def issued (outs : List (Except Panic (Out Id T))) : List Id :=
  outs.filterMap fun out => out.toOption.bind Out.issued?

/-! ## Lists of optional values -/

/-- What a run may have made of a list: new entries under new ids, none of the vacated entries
filled again, and no other entry touched than those named. -/
structure Later (M M' : List (Option T)) (fresh : List Id) (Named : Id → Prop) : Prop where
  order : fresh.map intoUsize = List.range' M.length fresh.length
  length : M'.length = M.length + fresh.length
  dead : ∀ {i : Nat}, M[i]? = some none → M'[i]? = some none
  kept : ∀ {id}, intoUsize id < M.length → ¬ Named id → M'[intoUsize id]? = M[intoUsize id]?

namespace Later

variable {M M' M'' : List (Option T)} {fresh fresh' : List Id} {Named Named' : Id → Prop}

theorem refl (M : List (Option T)) (Named : Id → Prop) : Later M M [] Named where
  order := rfl
  length := rfl
  dead h := h
  kept _ _ := rfl

theorem trans (h : Later M M' fresh Named) (h' : Later M' M'' fresh' Named') :
    Later M M'' (fresh ++ fresh') (fun id => Named id ∨ Named' id) where
  order := by
    rw [List.map_append, h.order, h'.order, h.length, List.length_append, List.range'_append_1]
  length := by rw [h'.length, h.length, List.length_append, Nat.add_assoc]
  dead hi := h'.dead (h.dead hi)
  kept hid hnot := by
    rw [not_or] at hnot
    have hid' : intoUsize _ < M'.length := Nat.lt_of_lt_of_le hid (h.length ▸ Nat.le_add_right _ _)
    rw [h'.kept hid' hnot.2, h.kept hid hnot.1]

theorem mono (h : Later M M' fresh Named) (hsub : ∀ id, Named id → Named' id) :
    Later M M' fresh Named' where
  order := h.order
  length := h.length
  dead := h.dead
  kept hid hnot := h.kept hid fun hnamed => hnot (hsub _ hnamed)

/-- A new entry at the end. -/
theorem push (M : List (Option T)) {id : Id} (hid : intoUsize id = M.length) (value : T)
    (Named : Id → Prop) : Later M (M ++ [some value]) [id] Named where
  order := by rw [List.map_singleton, hid]; rfl
  length := List.length_append
  dead hi := by rw [List.getElem?_append_left (List.getElem?_eq_some_iff.1 hi).1, hi]
  kept hid _ := List.getElem?_append_left hid

/-- A change at one entry that does not fill it. -/
theorem write {id : Id} (hlength : M'.length = M.length)
    (hdead : M[intoUsize id]? = some none → M'[intoUsize id]? = some none)
    (hother : ∀ i, intoUsize id ≠ i → M'[i]? = M[i]?) :
    Later M M' [] fun id' : Id => intoUsize id = intoUsize id' where
  order := rfl
  length := hlength
  dead {i} hi := by
    by_cases heq : intoUsize id = i
    · subst heq
      exact hdead hi
    · rw [hother i heq, hi]
  kept _ hnot := hother _ hnot

theorem modify (M : List (Option T)) (id : Id) (f : T → T) :
    Later M (M.modify (intoUsize id) (Option.map f)) [] fun id' : Id =>
      intoUsize id = intoUsize id' := by
  refine write (List.length_modify _ _ _) (fun hdead => ?_) fun i hne => ?_
  · rw [List.getElem?_modify, hdead]
    simp
  · rw [List.getElem?_modify]
    simp [hne]

/-- One operation of the list, by cases on the operation. -/
theorem ofSpecStep (M : List (Option T)) {op : Op Id T} (hop : op.Retains) :
    Later M (specStep op M).2 ((specStep op M).1.bind Out.issued?).toList
      fun id => op.Names id := by
  cases op with
  | push value =>
      rw [specStep]
      split
      · rename_i hfits
        exact push M hfits.2 value _
      · exact refl M _
  | remove id =>
      rw [specStep]
      split
      · refine write List.length_set (fun hdead => ?_) fun i hne => List.getElem?_set_ne hne
        -- The entry was occupied; in any case it is vacant now.
        rw [List.getElem?_set_self (List.getElem?_eq_some_iff.1 hdead).1]
      · exact (refl M _).mono fun _ => False.elim
  | getMut id f => exact modify M id f
  | indexMut id f =>
      rw [specStep]
      split
      · exact modify M id f
      · exact (refl M _).mono fun _ => False.elim
  | clear => exact absurd hop id
  | truncateIssued k => exact absurd hop id
  | shrinkToFit => exact refl M _

omit [Identifier Id] in
theorem filterMap_cons_toList {α β : Type} (f : α → Option β) (x : α) (xs : List α) :
    (x :: xs).filterMap f = (f x).toList ++ xs.filterMap f := by
  rw [List.filterMap_cons]
  cases f x with
  | none => rfl
  | some y => rfl

/-- And a whole run, by induction on its operations. -/
theorem ofRun (ops : List (Op Id T)) :
    (∀ op ∈ ops, op.Retains) → ∀ M : List (Option T),
      Later M (runOps specStep ops M).2
        ((runOps specStep ops M).1.filterMap fun out => out.bind Out.issued?)
        fun id => ∃ op ∈ ops, op.Names id := by
  induction ops with
  | nil => exact fun _ M => refl M _
  | cons op ops ih =>
      intro hops M
      rw [List.forall_mem_cons] at hops
      have h := (ofSpecStep M hops.1).trans (ih hops.2 (specStep op M).2)
      rw [runOps_cons, filterMap_cons_toList]
      refine h.mono fun id hnamed => ?_
      rcases hnamed with hnamed | ⟨op', hop', hnamed⟩
      · exact ⟨op, List.mem_cons_self, hnamed⟩
      · exact ⟨op', List.mem_cons_of_mem op hop', hnamed⟩

end Later

/-! ## The arena -/

variable {a b : StableArena Id T} {before : List (Op Id T)}
  {outs outs' : List (Except Panic (Out Id T))}

/-- Whatever came before: a run that takes no id back issues the next ids in order, so no two of
them are equal and none was issued before; what was removed stays removed; and an id that no
operation of the run is given shows what it showed. -/
theorem run_identity {ops : List (Op Id T)}
    (hbefore : runOps step before (empty : StableArena Id T) = (outs, a))
    (hrun : runOps step ops a = (outs', b)) (hops : ∀ op ∈ ops, op.Retains) :
    (issued outs').map intoUsize = List.range' a.issuedLen (issued outs').length ∧
      b.issuedLen = a.issuedLen + (issued outs').length ∧
      (∀ id, intoUsize id < a.issuedLen → a.contains id = false → b.contains id = false) ∧
      ∀ id, intoUsize id < a.issuedLen → (∀ op ∈ ops, ¬ op.Names id) → b.get id = a.get id := by
  obtain ⟨-, ha, -⟩ := run_refines step_simulates before (empty : StableArena Id T) [] ⟨empty_inv, rfl⟩
  rw [hbefore] at ha
  obtain ⟨houts, hb, habs⟩ := run_refines step_simulates ops a a.abs ⟨ha, rfl⟩
  rw [hrun] at houts hb habs
  have hlater := Later.ofRun ops hops a.abs
  have hissued : issued outs' =
      (runOps specStep ops a.abs).1.filterMap fun out => out.bind Out.issued? := by
    rw [issued, ← houts, List.filterMap_map]
    rfl
  rw [← hissued, ← habs] at hlater
  -- What the list of the arena says is what can be observed.
  have hoa := ha.observes
  have hob := hb.observes
  rw [hoa.issuedLen, hob.issuedLen]
  refine ⟨hlater.order, hlater.length, fun id hid hdead => ?_, fun id hid hunnamed => ?_⟩
  · rw [hoa.contains, Option.isSome_eq_false_iff, Option.isNone_iff_eq_none] at hdead
    rw [hob.contains, Option.isSome_eq_false_iff, Option.isNone_iff_eq_none]
    obtain ⟨entry, hentry⟩ : ∃ entry, a.abs[intoUsize id]? = some entry :=
      ⟨_, List.getElem?_eq_getElem hid⟩
    rw [hentry] at hdead
    obtain rfl : entry = none := hdead
    rw [hlater.dead hentry]
    rfl
  · rw [hoa.get, hob.get, hlater.kept hid fun ⟨op, hop, hnamed⟩ => hunnamed op hop hnamed]

/-- An id is removed; the next push does not bring it back, and leaves the other alone. -/
theorem run_identity_removed :
    ∃ a b : StableArena (DerivedId .u32) Nat, ∃ outs outs',
      runOps step [.push 7, .push 8, .remove ⟨0, by decide⟩] empty = (outs, a) ∧
        runOps step [.push 9] a = (outs', b) ∧ b.contains ⟨0, by decide⟩ = false ∧
        b.get ⟨1, by decide⟩ = .ok (some ⟨⟨1, by decide⟩, 8⟩) := by
  refine ⟨_, _, _, _, rfl, rfl, ?_⟩
  have hops : ∀ op ∈ ([.push 9] : List (Op (DerivedId .u32) Nat)), op.Retains ∧ ∀ id, ¬ op.Names id := by
    intro op hop
    obtain rfl := List.mem_singleton.1 hop
    exact ⟨trivial, fun id hnamed => hnamed⟩
  obtain ⟨-, -, hdead, hkept⟩ := @run_identity (DerivedId .u32) Nat _ _ _
    [.push 7, .push 8, .remove ⟨0, by decide⟩] _ _ [.push 9] rfl rfl fun op hop => (hops op hop).1
  exact ⟨hdead _ (by decide) rfl, hkept _ (by decide) fun op hop => (hops op hop).2 _⟩

end StableArena
end Jstd
