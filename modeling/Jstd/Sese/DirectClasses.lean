import Mathlib.Order.Lattice.Nat
import Jstd.Sese.BracketBounds

/-!
# direct_cycle_classes — union-find over the cycle predicate

Cycle equivalence of distinct edges is an equivalence, so by the time a pair is examined every edge
already hangs directly below the first edge of its class: the array is never more than one level
deep (`United`), `find` takes one step, and path halving changes nothing.

What `jpp_cycle_classes` returns, by either way, separates the classes (`jppCycleClasses_spec`).
-/

namespace Jstd
namespace Sese

open Foundation

variable {E : Type} {edges : List (IEdge E)} {n : Nat}

/-- In one class: the same edge, or cycle equivalent. -/
def Mate (edges : List (IEdge E)) (i j : Nat) : Prop :=
  i = j ∨ (edgeGraph edges).CycleEquivalent i j

theorem Mate.symm {i j : Nat} (h : Mate edges i j) : Mate edges j i := by
  rcases h with rfl | h
  · exact .inl rfl
  · exact .inr h.symm

theorem Mate.trans {i j k : Nat} (hi : i < edges.length) (hk : k < edges.length)
    (h : Mate edges i j) (h' : Mate edges j k) : Mate edges i k := by
  by_cases hik : i = k
  · exact .inl hik
  · rcases h with rfl | h
    · exact h'
    · rcases h' with rfl | h'
      · exact .inr h
      · exact .inr (h.trans hi hk h' hik)

/-- The first edge of the class. -/
noncomputable def firstMate (edges : List (IEdge E)) (i : Nat) : Nat :=
  sInf {j | Mate edges j i}

theorem mate_firstMate (edges : List (IEdge E)) (i : Nat) : Mate edges (firstMate edges i) i :=
  Nat.sInf_mem (s := {j | Mate edges j i}) ⟨i, .inl rfl⟩

theorem firstMate_le {i j : Nat} (h : Mate edges j i) : firstMate edges i ≤ j :=
  Nat.sInf_le h

theorem firstMate_le_self (edges : List (IEdge E)) (i : Nat) : firstMate edges i ≤ i :=
  firstMate_le (.inl rfl)

theorem firstMate_eq_iff {i j : Nat} (hi : i < edges.length) (hj : j < edges.length) :
    firstMate edges i = firstMate edges j ↔ Mate edges i j := by
  have hi' := firstMate_le_self edges i
  have hj' := firstMate_le_self edges j
  constructor
  · intro h
    have hij := mate_firstMate edges i
    rw [h] at hij
    exact hij.symm.trans hi hj (mate_firstMate edges j)
  · intro h
    refine Nat.le_antisymm ?_ ?_
    · exact firstMate_le ((mate_firstMate edges j).trans (by omega) hi h.symm)
    · exact firstMate_le ((mate_firstMate edges i).trans (by omega) hj h)

theorem firstMate_idem {i : Nat} (hi : i < edges.length) :
    firstMate edges (firstMate edges i) = firstMate edges i := by
  have hle := firstMate_le_self edges i
  exact (firstMate_eq_iff (by omega) hi).2 (mate_firstMate edges i)

/-! ## Uniting -/

/-- All pairs before `(a, b)` have been examined. -/
structure United (edges : List (IEdge E)) (a b : Nat) (s : DirectState) : Prop where
  rest : s.labels = .empty ∧ s.next = 1
  length : s.parent.length = edges.length
  parent_of : ∀ i < edges.length, (firstMate edges i < a ∨ (firstMate edges i = a ∧ i < b)) →
    s.parent.getD i 0 = firstMate edges i
  parent_self : ∀ i < edges.length, ¬ (firstMate edges i < a ∨ (firstMate edges i = a ∧ i < b)) →
    s.parent.getD i 0 = i

theorem United.parent_first {a b : Nat} {s : DirectState} (h : United edges a b s) {i : Nat}
    (hi : i < edges.length) : s.parent.getD (firstMate edges i) 0 = firstMate edges i := by
  have hle := firstMate_le_self edges i
  have hidem := firstMate_idem hi
  by_cases hcond : firstMate edges (firstMate edges i) < a ∨
      (firstMate edges (firstMate edges i) = a ∧ firstMate edges i < b)
  · rw [h.parent_of _ (by omega) hcond, hidem]
  · exact h.parent_self _ (by omega) hcond

/-- In an array of one level `find` reads the root and changes nothing. -/
theorem find_spec {s : DirectState} {i : Nat} (hi : i < s.parent.length)
    (hroot : s.parent.getD i 0 < s.parent.length)
    (hflat : s.parent.getD (s.parent.getD i 0) 0 = s.parent.getD i 0) (fuel : Nat) :
    (find (fuel + 2) i).run s = (.ok (s.parent.getD i 0), s) := by
  have hroot' : (find (fuel + 1) (s.parent.getD i 0)).run s =
      (.ok (s.parent.getD i 0), s) := by
    simp only [find, Method.run_bind_get, index_of_lt hroot 0, hflat, Method.run_bind_liftM_ok]
    rfl
  -- Path compression writes what is there already.
  have hsame : s.parent.set i (s.parent.getD i 0) = s.parent := by
    refine List.ext_getElem? fun j => ?_
    rw [List.getElem?_set]
    split
    · rename_i hij
      subst hij
      rw [List.getD_eq_getElem?_getD, List.getElem?_eq_getElem hi]
      rfl
    · rfl
  rw [find]
  simp only [Method.run_bind_get, index_of_lt hi 0, Method.run_bind_liftM_ok]
  by_cases hself : s.parent.getD i 0 = i
  · rw [if_pos hself]
    show (Except.ok i, s) = _
    rw [hself]
  · rw [if_neg hself]
    simp only [index_of_lt hroot 0, hflat, setIndex_of_lt hi, hsame, Method.run_bind_liftM_ok,
      Method.run_bind_modify, index_of_lt hi 0]
    exact hroot'

theorem United.find {a b : Nat} {s : DirectState} (h : United edges a b s) {i : Nat}
    (hi : i < edges.length) :
    (find (edges.length + 1) i).run s = (.ok (s.parent.getD i 0), s) := by
  have hle := firstMate_le_self edges i
  obtain ⟨fuel, hfuel⟩ : ∃ fuel, edges.length + 1 = fuel + 2 := ⟨edges.length - 1, by omega⟩
  rw [hfuel]
  by_cases hcond : firstMate edges i < a ∨ (firstMate edges i = a ∧ i < b)
  · have hp := h.parent_of i hi hcond
    refine find_spec (by rw [h.length]; exact hi) ?_ ?_ fuel
    · rw [hp, h.length]
      omega
    · rw [hp]
      exact h.parent_first hi
  · have hp := h.parent_self i hi hcond
    refine find_spec (by rw [h.length]; exact hi) ?_ ?_ fuel
    · rw [hp, h.length]
      exact hi
    · rw [hp, hp]

theorem uniteEquivalent_spec (hbounds : InBounds edges n) {a b : Nat} (hab : a < b)
    (hb : b < edges.length) {s : DirectState} (h : United edges a b s) :
    ∃ t, (uniteEquivalent edges n a b).run s = (.ok (), t) ∧ United edges a (b + 1) t := by
  classical
  have ha : a < edges.length := by omega
  have hle := firstMate_le_self edges a
  rw [uniteEquivalent, cycleEquivalent_eq hbounds ha hb]
  simp only [Method.run_bind_liftM_ok, decide_eq_true_eq]
  by_cases heq : (edgeGraph edges).CycleEquivalent a b
  · rw [if_pos heq, Method.run_bind_of_ok (h.find ha), Method.run_bind_of_ok (h.find hb)]
    have hmate := (firstMate_eq_iff ha hb).2 (.inr heq)
    have hpa : s.parent.getD a 0 = firstMate edges a := by
      refine h.parent_of a ha ?_
      omega
    -- The edge `b` is its own root or hangs below `firstMate`; either way only its entry moves.
    have hset : ∀ i < edges.length,
        (s.parent.set (s.parent.getD b 0) (firstMate edges a)).getD i 0 =
          if i = b then firstMate edges b else s.parent.getD i 0 := by
      intro i hi
      rw [getD_set, h.length]
      by_cases hcond : firstMate edges b < a ∨ (firstMate edges b = a ∧ b < b)
      · -- `b` hangs below an earlier edge already.
        rw [h.parent_of b hb hcond]
        by_cases hi' : firstMate edges b = i
        · rw [if_pos ⟨hi', by omega⟩, hmate]
          split
          · rfl
          · rw [← hi', h.parent_first hb]
        · rw [if_neg (fun hh => hi' hh.1)]
          split
          · rename_i hib
            rw [hib, h.parent_of b hb hcond]
          · rfl
      · rw [h.parent_self b hb hcond, hmate]
        by_cases hib : b = i
        · rw [if_pos ⟨hib, hb⟩, if_pos hib.symm]
        · rw [if_neg (fun hh => hib hh.1), if_neg (Ne.symm hib)]
    have hlt : s.parent.getD b 0 < s.parent.length := by
      rw [h.length]
      by_cases hcond : firstMate edges b < a ∨ (firstMate edges b = a ∧ b < b)
      · rw [h.parent_of b hb hcond]
        omega
      · rw [h.parent_self b hb hcond]
        exact hb
    refine ⟨{ s with parent := s.parent.set (s.parent.getD b 0) (firstMate edges a) }, ?_, ?_⟩
    · simp only [Method.run_bind_get, hpa, setIndex_of_lt hlt, Method.run_bind_liftM_ok]
      rfl
    · constructor
      · exact h.rest
      · show (s.parent.set _ _).length = _
        rw [List.length_set, h.length]
      · intro i hi hcond
        rw [hset i hi]
        split
        · rename_i hib
          rw [hib]
        · exact h.parent_of i hi (by omega)
      · intro i hi hcond
        rw [hset i hi]
        split
        · rename_i hib
          subst hib
          omega
        · exact h.parent_self i hi (by omega)
  · rw [if_neg heq]
    have hne : firstMate edges b ≠ a := by
      intro hfirst
      rcases mate_firstMate edges b with hself | hmate
      · omega
      · rw [hfirst] at hmate
        exact heq hmate
    refine ⟨s, rfl, h.rest, h.length, ?_, ?_⟩
    · intro i hi hcond
      by_cases hib : i = b
      · subst hib
        exact h.parent_of i hi (by omega)
      · exact h.parent_of i hi (by omega)
    · intro i hi hcond
      exact h.parent_self i hi (by omega)

/-- Both loops over pairs. -/
theorem uniteAll_spec (hbounds : InBounds edges n) :
    ∃ t, (Method.forUp 0 edges.length fun a =>
        Method.forUp (a + 1) (edges.length - (a + 1)) (uniteEquivalent edges n a)).run
          { parent := List.range edges.length, labels := .empty, next := 1 } = (.ok (), t) ∧
      (t.labels = .empty ∧ t.next = 1) ∧ t.parent.length = edges.length ∧
      ∀ i < edges.length, t.parent.getD i 0 = firstMate edges i := by
  obtain ⟨t, hrun, ht⟩ := Method.forUp_induction 0 edges.length
    (fun a => Method.forUp (a + 1) (edges.length - (a + 1)) (uniteEquivalent edges n a))
    -- Before the row of `a`, what lies below is united with its first mate.
    (fun a s => United edges a (a + 1) s)
    (s := { parent := List.range edges.length, labels := .empty, next := 1 })
    (by
      have hrange : ∀ i < edges.length, (List.range edges.length).getD i 0 = i := by
        intro i hi
        rw [List.getD_eq_getElem?_getD, List.getElem?_range hi]
        rfl
      refine ⟨⟨rfl, rfl⟩, List.length_range, ?_, fun i hi _ => hrange i hi⟩
      intro i hi hcond
      have hle := firstMate_le_self edges i
      rw [show firstMate edges i = i by omega]
      exact hrange i hi)
    (by
      intro a s _ ha hs
      obtain ⟨t, hrun, ht⟩ := Method.forUp_induction (a + 1)
        (edges.length - (a + 1)) (uniteEquivalent edges n a)
        (fun b s => United edges a b s) hs
        fun b s hab hb hs => uniteEquivalent_spec hbounds (by omega) (by omega) hs
      refine ⟨t, hrun, ht.rest, ht.length, ?_, ?_⟩
      · intro i hi hcond
        have hle := firstMate_le_self edges i
        by_cases hself : firstMate edges i = i
        · have := ht.parent_first hi
          rwa [hself] at this ⊢
        · exact ht.parent_of i hi (by omega)
      · intro i hi hcond
        exact ht.parent_self i hi (by omega))
  refine ⟨t, hrun, ht.rest, ht.length, ?_⟩
  intro i hi
  have hle := firstMate_le_self edges i
  exact ht.parent_of i hi (by omega)

/-! ## Labelling -/

/-- Labels given out so far are positive, below the next one, and different for different roots. -/
structure Labelled (s : DirectState) : Prop where
  bounds : ∀ f l, s.labels.get? f = some l → 1 ≤ l ∧ l < s.next
  inj : ∀ f f' l, s.labels.get? f = some l → s.labels.get? f' = some l → f = f'
  next_pos : 1 ≤ s.next

theorem labelOf_spec {s : DirectState} {fuel edge root : Nat}
    (hfind : (find fuel edge).run s = (.ok root, s)) (h : Labelled s) :
    ∃ l t, (labelOf fuel edge).run s = (.ok l, t) ∧ Labelled t ∧ t.parent = s.parent ∧
      t.labels.get? root = some l ∧
      ∀ f l', s.labels.get? f = some l' → t.labels.get? f = some l' := by
  rw [labelOf, Method.run_bind_of_ok hfind]
  simp only [Method.run_bind_get]
  cases hroot : s.labels.get? root with
  | some l => exact ⟨l, s, rfl, h, rfl, hroot, fun _ _ hf => hf⟩
  | none =>
      -- A new label: the root had none, and the number is above those in use.
      have hne : ∀ f l, s.labels.get? f = some l → f ≠ root := by
        rintro f l hf rfl
        rw [hroot] at hf
        cases hf
      refine ⟨s.next, { s with labels := s.labels.insert root s.next, next := s.next + 1 }, rfl,
        ⟨?_, ?_, ?_⟩, rfl, HashMap.get?_insert_self _ _ _, ?_⟩
      · intro f l hf
        rw [HashMap.get?_insert] at hf
        have hpos := h.next_pos
        split at hf
        · obtain rfl := Option.some.inj hf
          exact ⟨hpos, Nat.lt_succ_self _⟩
        · have := h.bounds f l hf
          exact ⟨this.1, Nat.lt_succ_of_lt this.2⟩
      · intro f f' l hf hf'
        rw [HashMap.get?_insert] at hf hf'
        split at hf
        · rename_i heq
          obtain rfl := Option.some.inj hf
          split at hf'
          · rename_i heq'
            rw [heq, heq']
          · exact absurd (h.bounds f' _ hf').2 (Nat.lt_irrefl _)
        · split at hf'
          · obtain rfl := Option.some.inj hf'
            exact absurd (h.bounds f _ hf).2 (Nat.lt_irrefl _)
          · exact h.inj f f' l hf hf'
      · exact Nat.le_add_left 1 s.next
      · intro f l hf
        rw [HashMap.get?_insert, if_neg (hne f l hf)]
        exact hf

theorem labelAll_spec {parent : List Nat} {fuel : Nat} {root : Nat → Nat}
    (ks : List Nat)
    (hfind : ∀ k ∈ ks, ∀ s : DirectState, s.parent = parent →
      (find fuel k).run s = (.ok (root k), s)) :
    ∀ s : DirectState, s.parent = parent → Labelled s →
      ∃ outs t, (labelAll fuel ks).run s = (.ok outs, t) ∧ Labelled t ∧
        (∀ f l, s.labels.get? f = some l → t.labels.get? f = some l) ∧
        List.Forall₂ (fun k l => t.labels.get? (root k) = some l) ks outs := by
  induction ks with
  | nil =>
      intro s _ h
      exact ⟨[], s, rfl, h, fun _ _ hf => hf, .nil⟩
  | cons k ks ih =>
      intro s hparent h
      obtain ⟨l, s₁, hrun₁, h₁, hparent₁, hget₁, hmono₁⟩ :=
        labelOf_spec (hfind k List.mem_cons_self s hparent) h
      obtain ⟨outs, t, hrun, ht, hmono, hall⟩ :=
        ih (fun k' hk' => hfind k' (List.mem_cons_of_mem k hk')) s₁ (hparent₁.trans hparent) h₁
      refine ⟨l :: outs, t, ?_, ht, fun f l' hf => hmono f l' (hmono₁ f l' hf),
        .cons (hmono _ _ hget₁) hall⟩
      rw [labelAll, Method.run_bind_of_ok hrun₁, Method.run_bind_of_ok hrun]
      rfl

/-- The direct labels: positive, and equal exactly within a class. -/
theorem directCycleClasses_spec (hbounds : InBounds edges n) :
    ∃ classes, directCycleClasses edges n = .ok classes ∧ classes.length = edges.length ∧
      (∀ i < edges.length, 1 ≤ classes.getD i 0) ∧
      ∀ i < edges.length, ∀ j < edges.length,
        classes.getD i 0 = classes.getD j 0 ↔ Mate edges i j := by
  obtain ⟨s, hunite, ⟨hlabels, hnext⟩, hlen, hparent⟩ := uniteAll_spec hbounds
  -- Every edge points at the first of its class, which points at itself.
  have hfind : ∀ k ∈ List.range edges.length, ∀ t : DirectState, t.parent = s.parent →
      (find (edges.length + 1) k).run t = (.ok (firstMate edges k), t) := by
    intro k hk t ht
    have hk := List.mem_range.1 hk
    have hle := firstMate_le_self edges k
    obtain ⟨fuel, hfuel⟩ : ∃ fuel, edges.length + 1 = fuel + 2 := ⟨edges.length - 1, by omega⟩
    have hp : t.parent.getD k 0 = firstMate edges k := by rw [ht, hparent k hk]
    have hspec := find_spec (s := t) (i := k) (by rw [ht]; omega) (by rw [hp, ht]; omega)
      (by rw [hp, ht, hparent _ (by omega), firstMate_idem hk]) fuel
    rw [hfuel, hspec, hp]
  obtain ⟨outs, t, hlabel, ht, -, hall⟩ := labelAll_spec (List.range edges.length) hfind s rfl
    ⟨fun f l hf => by simp [hlabels] at hf, fun f f' l hf => by simp [hlabels] at hf, by omega⟩
  have hlen' : outs.length = edges.length := by rw [← hall.length_eq, List.length_range]
  have hget : ∀ i < edges.length, t.labels.get? (firstMate edges i) = some (outs.getD i 0) := by
    intro i hi
    have := hall.get (by rw [List.length_range]; exact hi) (by omega)
    rw [List.getD_eq_getElem?_getD, List.getElem?_eq_getElem (by omega)]
    simpa using this
  refine ⟨outs, ?_, hlen', ?_, ?_⟩
  · rw [directCycleClasses]
    rw [Method.run_bind_of_ok hunite, hlabel]
  · intro i hi
    exact (ht.bounds _ _ (hget i hi)).1
  · intro i hi j hj
    rw [← firstMate_eq_iff hi hj]
    constructor
    · intro heq
      have hi' := hget i hi
      rw [heq] at hi'
      exact ht.inj _ _ _ hi' (hget j hj)
    · intro heq
      have hi' := hget i hi
      rw [heq, hget j hj] at hi'
      exact (Option.some.inj hi').symm

/-! ## jpp_cycle_classes -/

open Classical in
theorem isValid_eq (hbounds : InBounds edges n) {classes : List Nat}
    (hlen : classes.length = edges.length) :
    isValid edges n classes = .ok (decide (∀ a < edges.length, ∀ b < edges.length,
      (classes.getD a 0 = classes.getD b 0 ↔ (edgeGraph edges).CycleEquivalent a b))) := by
  rw [isValid, allChecked_of_ok (q := fun a => (List.range edges.length).all fun b =>
    (classes.getD a 0 == classes.getD b 0) == decide ((edgeGraph edges).CycleEquivalent a b))]
  · have hone : ∀ a b, ((classes.getD a 0 == classes.getD b 0) ==
        decide ((edgeGraph edges).CycleEquivalent a b)) = true ↔
          (classes.getD a 0 = classes.getD b 0 ↔ (edgeGraph edges).CycleEquivalent a b) := by
      intro a b
      rw [beq_iff_eq, Bool.eq_iff_iff, beq_iff_eq, decide_eq_true_eq]
    congr 1
    rw [Bool.eq_iff_iff, decide_eq_true_eq]
    simp only [List.all_eq_true, List.mem_range, hone]
  · intro a ha
    have ha := List.mem_range.1 ha
    refine allChecked_of_ok _ fun b hb => ?_
    have hb := List.mem_range.1 hb
    rw [index_of_lt (show a < classes.length by rw [hlen]; exact ha) 0,
      index_of_lt (show b < classes.length by rw [hlen]; exact hb) 0]
    show (cycleEquivalent edges n a b >>= _) = _
    rw [cycleEquivalent_eq hbounds ha hb]
    rfl

/-- The labels separate the classes; and where some edge lies on a cycle, which the validation
compares with itself, they are the direct ones. -/
theorem jppCycleClasses_spec (hbounds : InBounds edges n) {root : Nat} (hroot : root < n) :
    ∃ classes, jppCycleClasses edges n root = .ok classes ∧ classes.length = edges.length ∧
      (∀ i < edges.length, ∀ j < edges.length, i ≠ j →
        (classes.getD i 0 = classes.getD j 0 ↔ (edgeGraph edges).CycleEquivalent i j)) ∧
      ((∃ i < edges.length, ¬ (edgeGraph edges).CycleEquivalent i i) →
        ∀ i < edges.length, classes.getD i 0 ≠ 0) := by
  classical
  obtain ⟨direct, hdirect, hlen, hpos, hmate⟩ := directCycleClasses_spec hbounds
  have hseparates : ∀ i < edges.length, ∀ j < edges.length, i ≠ j →
      (direct.getD i 0 = direct.getD j 0 ↔ (edgeGraph edges).CycleEquivalent i j) := by
    intro i hi j hj hij
    rw [hmate i hi j hj, Mate]
    simp [hij]
  have hfallback : ∃ classes, Except.ok (ε := Panic) direct = .ok classes ∧
      classes.length = edges.length ∧
      (∀ i < edges.length, ∀ j < edges.length, i ≠ j →
        (classes.getD i 0 = classes.getD j 0 ↔ (edgeGraph edges).CycleEquivalent i j)) ∧
      ((∃ i < edges.length, ¬ (edgeGraph edges).CycleEquivalent i i) →
        ∀ i < edges.length, classes.getD i 0 ≠ 0) :=
    ⟨direct, rfl, hlen, hseparates, fun _ i hi => Nat.ne_of_gt (hpos i hi)⟩
  obtain ⟨r, hrun, hlabels⟩ := bracketClasses_spec hbounds hroot
  rw [jppCycleClasses, hrun]
  cases r with
  | none =>
      show ∃ classes, directCycleClasses edges n = _ ∧ _
      rw [hdirect]
      exact hfallback
  | some classes =>
      have hclasses := hlabels classes rfl
      show ∃ classes', (isValid edges n classes >>= _) = _ ∧ _
      rw [isValid_eq hbounds hclasses]
      -- Labels that fail the check are thrown away for the direct ones.
      by_cases hvalid : ∀ a < edges.length, ∀ b < edges.length,
          (classes.getD a 0 = classes.getD b 0 ↔ (edgeGraph edges).CycleEquivalent a b)
      · rw [decide_eq_true hvalid]
        refine ⟨classes, rfl, hclasses, fun i hi j hj _ => hvalid i hi j hj, ?_⟩
        rintro ⟨i, hi, hcycle⟩
        exact absurd ((hvalid i hi i hi).1 rfl) hcycle
      · rw [decide_eq_false hvalid]
        show ∃ classes', directCycleClasses edges n = _ ∧ _
        rw [hdirect]
        exact hfallback

end Sese
end Jstd
