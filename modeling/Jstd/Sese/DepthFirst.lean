import Jstd.Foundation.DepthFirstTree
import Jstd.Sese.Visit

/-!
# The search leaves a depth-first tree

The nodes being visited form a stack.  A node on it has no end yet, and everything numbered since it
was entered is below it; a node off it has an end, and all its edges have been followed, so none of
them leads to a node that is neither below it nor above it.
-/

namespace Jstd
namespace Sese

open Foundation

variable {E : Type} {edges : List (IEdge E)} {n m : Nat} {incident : List (List Nat)}

/-! ## Edges at a node -/

/-- Every row holds the edges at its node. -/
def Files (edges : List (IEdge E)) (incident : List (List Nat)) : Prop :=
  ∀ v eid, eid ∈ incident.getD v [] ↔
    ∃ edge, edges[eid]? = some edge ∧ (edge.fromNode = v ∨ edge.toNode = v)

theorem other_other {edge : IEdge E} {v : Nat} (h : edge.fromNode = v ∨ edge.toNode = v) :
    other edge (other edge v) = v := by
  rcases h with rfl | rfl
  · simp only [other, if_true]
    split
    · rename_i hloop
      exact hloop.symm
    · rfl
  · simp only [other]
    split
    · simp
    · simp

theorem other_ends (edge : IEdge E) (v : Nat) :
    edge.fromNode = other edge v ∨ edge.toNode = other edge v := by
  rw [other]
  split
  · exact .inr rfl
  · exact .inl rfl

/-- An edge of a row is in the row of its other end. -/
theorem Files.other_mem (hfiles : Files edges incident) {v eid : Nat} {edge : IEdge E}
    (heid : eid ∈ incident.getD v []) (hedge : edges[eid]? = some edge) :
    eid ∈ incident.getD (other edge v) [] ∧ other edge (other edge v) = v := by
  obtain ⟨edge', hedge', hends⟩ := (hfiles v eid).1 heid
  obtain rfl := Option.some.inj (hedge.symm.trans hedge')
  exact ⟨(hfiles _ eid).2 ⟨edge, hedge, other_ends edge v⟩, other_other hends⟩

/-! ## The state of the search -/

/-- The position of a node in the order of the search. -/
def VisitState.place (self : VisitState) (v : Nat) : Nat :=
  self.preorder.idxOf v

/-- `v` was numbered while the search was at `u`; a node on the stack has no end yet. -/
def Inside (s : VisitState) (stack : List Nat) (u v : Nat) : Prop :=
  s.place u ≤ s.place v ∧ (u ∈ stack ∨ s.place v < s.endOf.getD u 0)

/-- `v` was reached from `p`, which is the last node that `v` is inside of. -/
structure ReachedFrom (edges : List (IEdge E)) (incident : List (List Nat)) (s : VisitState)
    (stack : List Nat) (v p eid : Nat) : Prop where
  parent_eq : s.parent.getD v none = some p
  parentEdge_eq : s.parentEdge.getD v none = some eid
  joins : eid ∈ incident.getD p [] ∧ ∃ edge, edges[eid]? = some edge ∧ other edge p = v
  mem : p ∈ s.preorder
  lt : s.place p < s.place v
  inside : Inside s stack p v
  max : ∀ u ∈ s.preorder, s.place u < s.place v → Inside s stack u v → s.place u ≤ s.place p

/-- The invariant of the search; the topmost node of the stack comes first. -/
structure Searched (edges : List (IEdge E)) (incident : List (List Nat)) (s : VisitState)
    (stack : List Nat) : Prop where
  nodup : s.preorder.Nodup
  number_eq : ∀ v ∈ s.preorder, s.number.getD v ⊤ = WithTop.some (s.place v)
  number_none : ∀ v, v ∉ s.preorder → s.number.getD v ⊤ = ⊤
  stack_mem : ∀ v ∈ stack, v ∈ s.preorder
  stack_sorted : stack.Pairwise fun u v => s.place v < s.place u
  closed : ∀ v ∈ s.preorder, v ∉ stack →
    s.place v < s.endOf.getD v 0 ∧ s.endOf.getD v 0 ≤ s.preorder.length
  nested : ∀ u ∈ s.preorder, u ∉ stack → ∀ v ∈ s.preorder, Inside s stack u v →
    v ∉ stack ∧ s.endOf.getD v 0 ≤ s.endOf.getD u 0
  first : ∀ v ∈ s.preorder, s.place v = 0 →
    s.parent.getD v none = none ∧ s.parentEdge.getD v none = none
  reached : ∀ v ∈ s.preorder, 0 < s.place v → ∃ p eid, ReachedFrom edges incident s stack v p eid
  followed : ∀ v ∈ s.preorder, v ∉ stack → ∀ eid ∈ incident.getD v [], ∀ edge,
    edges[eid]? = some edge → other edge v ∈ s.preorder ∧
      (Inside s stack v (other edge v) ∨ Inside s stack (other edge v) v)

/-- The edges marked so far led to nodes that have been left. -/
def Flagged (s : VisitState) (stack : List Nat) : Prop :=
  ∀ eid, s.tree.getD eid false = true ↔
    ∃ v ∈ s.preorder, v ∉ stack ∧ s.parentEdge.getD v none = some eid

section

variable {s t : VisitState} {stack : List Nat} {node : Nat}

theorem place_lt (v : Nat) (hv : v ∈ s.preorder) : s.place v < s.preorder.length :=
  List.idxOf_lt_length_of_mem hv

theorem place_inj {u v : Nat} (hu : u ∈ s.preorder) (h : s.place u = s.place v) : u = v :=
  (List.idxOf_inj hu).1 h

theorem Searched.number_ne_top (h : Searched edges incident s stack) {v : Nat} :
    s.number.getD v ⊤ ≠ ⊤ ↔ v ∈ s.preorder := by
  constructor
  · intro hne
    by_contra hv
    exact hne (h.number_none v hv)
  · intro hv
    rw [h.number_eq v hv]
    exact WithTop.coe_ne_top

/-- A node on the stack is not inside one that has been left. -/
theorem Searched.mem_stack_of_inside (h : Searched edges incident s stack) {u v : Nat}
    (hu : u ∈ s.preorder) (hv : v ∈ stack) (hin : Inside s stack u v) : u ∈ stack := by
  by_contra hstack
  exact (h.nested u hu hstack v (h.stack_mem v hv) hin).1 hv

/-! ### Entering a node -/

theorem mem_enter {v : Nat} : v ∈ (s.enter node).preorder ↔ v ∈ s.preorder ∨ v = node := by
  rw [VisitState.enter, List.mem_append, List.mem_singleton]

theorem place_enter {v : Nat} (hv : v ∈ s.preorder) : (s.enter node).place v = s.place v := by
  rw [VisitState.place, VisitState.enter, List.idxOf_append, if_pos hv]
  rfl

theorem place_enter_self (hnode : node ∉ s.preorder) :
    (s.enter node).place node = s.preorder.length := by
  rw [VisitState.place, VisitState.enter, List.idxOf_append, if_neg hnode, List.idxOf_cons_self,
    Nat.zero_add]

/-- Whence a node without a number is entered. -/
structure Entry (edges : List (IEdge E)) (incident : List (List Nat)) (s : VisitState)
    (stack : List Nat) (node : Nat) : Prop where
  fresh : node ∉ s.preorder
  first : s.preorder = [] → s.parent.getD node none = none ∧ s.parentEdge.getD node none = none
  later : s.preorder ≠ [] → ∃ p rest eid edge, stack = p :: rest ∧
    s.parent.getD node none = some p ∧ s.parentEdge.getD node none = some eid ∧
    eid ∈ incident.getD p [] ∧ edges[eid]? = some edge ∧ other edge p = node

/-- Inside a node left before, nothing has changed. -/
theorem inside_enter {u v : Nat} (hu : u ∈ s.preorder) (hv : v ∈ s.preorder) (hnode : node ≠ u) :
    Inside (s.enter node) (node :: stack) u v ↔ Inside s stack u v := by
  rw [Inside, Inside, place_enter hu, place_enter hv]
  refine and_congr_right fun _ => or_congr ?_ Iff.rfl
  rw [List.mem_cons]
  exact ⟨fun h => h.resolve_left (Ne.symm hnode), .inr⟩

theorem Searched.enter (h : Searched edges incident s stack) (hs : Visited n m s) (hnode : node < n)
    (hentry : Entry edges incident s stack node) :
    Searched edges incident (s.enter node) (node :: stack) := by
  have hne : ∀ {v}, v ∈ s.preorder → node ≠ v := by
    rintro v hv rfl
    exact hentry.fresh hv
  have hstack : ∀ {v}, v ∉ node :: stack → v ≠ node ∧ v ∉ stack := by
    intro v hv
    rw [List.mem_cons, not_or] at hv
    exact hv
  have hself := place_enter_self hentry.fresh
  -- A node that has been left ended before `node` was numbered.
  have hout : ∀ u ∈ s.preorder, Inside (s.enter node) (node :: stack) u node → u ∈ stack := by
    rintro u hu ⟨-, hmem | hlt⟩
    · exact (List.mem_cons.1 hmem).resolve_left (Ne.symm (hne hu))
    · by_contra hu'
      rw [hself] at hlt
      exact Nat.not_le_of_lt hlt (h.closed u hu hu').2
  constructor
  · rw [VisitState.enter]
    exact List.nodup_append.2 ⟨h.nodup, List.nodup_singleton _, by
      intro v hv w hw
      rw [List.mem_singleton.1 hw]
      exact Ne.symm (hne hv)⟩
  · intro v hv
    rw [VisitState.enter, getD_set]
    rcases mem_enter.1 hv with hv | rfl
    · rw [if_neg fun h' => hne hv h'.1, h.number_eq v hv]
      exact congrArg _ (place_enter hv).symm
    · rw [if_pos ⟨rfl, by rw [hs.number_length]; exact hnode⟩]
      exact congrArg _ hself.symm
  · intro v hv
    rw [mem_enter, not_or] at hv
    rw [VisitState.enter, getD_set, if_neg fun h' => hv.2 h'.1.symm]
    exact h.number_none v hv.1
  · intro v hv
    rcases List.mem_cons.1 hv with rfl | hv
    · exact mem_enter.2 (.inr rfl)
    · exact mem_enter.2 (.inl (h.stack_mem v hv))
  · refine List.pairwise_cons.2 ⟨?_, h.stack_sorted.imp_of_mem ?_⟩
    · intro v hv
      rw [hself, place_enter (h.stack_mem v hv)]
      exact place_lt v (h.stack_mem v hv)
    · intro u v hu hv hlt
      rw [place_enter (h.stack_mem u hu), place_enter (h.stack_mem v hv)]
      exact hlt
  · intro v hv hv'
    obtain ⟨hvn, hvs⟩ := hstack hv'
    have hv := (mem_enter.1 hv).resolve_right hvn
    obtain ⟨hlt, hle⟩ := h.closed v hv hvs
    rw [place_enter hv]
    refine ⟨hlt, ?_⟩
    rw [VisitState.enter, List.length_append]
    exact hle.trans (Nat.le_add_right _ _)
  · intro u hmemu hu' v hmemv hin
    obtain ⟨hun, hus⟩ := hstack hu'
    have hu := (mem_enter.1 hmemu).resolve_right hun
    rcases mem_enter.1 hmemv with hv | rfl
    · obtain ⟨hvs, hle⟩ := h.nested u hu hus v hv ((inside_enter hu hv (hne hu)).1 hin)
      refine ⟨?_, hle⟩
      rw [List.mem_cons, not_or]
      exact ⟨Ne.symm (hne hv), hvs⟩
    · exact absurd (hout u hu hin) hus
  · intro v hv hzero
    rcases mem_enter.1 hv with hv | rfl
    · rw [place_enter hv] at hzero
      exact h.first v hv hzero
    · rw [hself] at hzero
      exact hentry.first (List.length_eq_zero_iff.1 hzero)
  · intro v hmemv hpos
    rcases mem_enter.1 hmemv with hv | rfl
    · rw [place_enter hv] at hpos
      obtain ⟨p, eid, hp⟩ := h.reached v hv hpos
      have hpv : (s.enter node).place p = s.place p := place_enter hp.mem
      refine ⟨p, eid, hp.parent_eq, hp.parentEdge_eq, hp.joins, mem_enter.2 (.inl hp.mem), ?_,
        (inside_enter hp.mem hv (hne hp.mem)).2 hp.inside, ?_⟩
      · rw [hpv, place_enter hv]
        exact hp.lt
      · intro u hmemu hlt hin
        rcases mem_enter.1 hmemu with hu | rfl
        · rw [hpv, place_enter hu]
          rw [place_enter hu, place_enter hv] at hlt
          exact hp.max u hu hlt ((inside_enter hu hv (hne hu)).1 hin)
        · rw [hself, place_enter hv] at hlt
          exact absurd (place_lt v hv) (Nat.lt_asymm hlt)
    · rw [hself] at hpos
      obtain ⟨p, rest, eid, edge, rfl, hparent, hparentEdge, heid, hedge, hother⟩ :=
        hentry.later (List.ne_nil_of_length_pos hpos)
      have hp : p ∈ s.preorder := h.stack_mem p List.mem_cons_self
      refine ⟨p, eid, hparent, hparentEdge, ⟨heid, edge, hedge, hother⟩, mem_enter.2 (.inl hp), ?_,
        ⟨?_, .inl (List.mem_cons_of_mem _ List.mem_cons_self)⟩, ?_⟩
      · rw [hself, place_enter hp]
        exact place_lt p hp
      · rw [hself, place_enter hp]
        exact (place_lt p hp).le
      · intro u hmemu hlt hin
        rcases mem_enter.1 hmemu with hu | rfl
        · rw [place_enter hu, place_enter hp]
          rcases List.mem_cons.1 (hout u hu hin) with rfl | hrest
          · exact Nat.le_refl _
          · exact ((List.pairwise_cons.1 h.stack_sorted).1 u hrest).le
        · exact absurd hlt (Nat.lt_irrefl _)
  · intro v hv hv' eid heid edge hedge
    obtain ⟨hvn, hvs⟩ := hstack hv'
    have hv := (mem_enter.1 hv).resolve_right hvn
    obtain ⟨hmem, hin⟩ := h.followed v hv hvs eid heid edge hedge
    refine ⟨mem_enter.2 (.inl hmem), ?_⟩
    rw [inside_enter hv hmem (hne hv), inside_enter hmem hv (hne hmem)]
    exact hin

theorem Flagged.enter (h : Flagged s stack) (hnode : node ∉ s.preorder) :
    Flagged (s.enter node) (node :: stack) := by
  intro eid
  refine (h eid).trans ?_
  constructor
  · rintro ⟨v, hv, hstack, heid⟩
    refine ⟨v, mem_enter.2 (.inl hv), ?_, heid⟩
    rw [List.mem_cons, not_or]
    refine ⟨?_, hstack⟩
    rintro rfl
    exact hnode hv
  · rintro ⟨v, hv, hstack, heid⟩
    rw [List.mem_cons, not_or] at hstack
    exact ⟨v, (mem_enter.1 hv).resolve_right hstack.1, hstack.2, heid⟩

/-! ### Following an edge -/

theorem getD_found_of_mem (node eid : Nat) {other v : Nat} (hother : other ∉ s.preorder) (hv : v ∈ s.preorder) :
    (s.found node other eid).parent.getD v none = s.parent.getD v none ∧
      (s.found node other eid).parentEdge.getD v none = s.parentEdge.getD v none := by
  have hne : other ≠ v := by
    rintro rfl
    exact hother hv
  rw [VisitState.found, getD_set, getD_set, if_neg fun h => hne h.1, if_neg fun h => hne h.1]
  exact ⟨rfl, rfl⟩

/-- Only a node without a number is given a parent. -/
theorem Searched.found {eid other : Nat} (h : Searched edges incident s stack)
    (hother : other ∉ s.preorder) : Searched edges incident (s.found node other eid) stack where
  nodup := h.nodup
  number_eq := h.number_eq
  number_none := h.number_none
  stack_mem := h.stack_mem
  stack_sorted := h.stack_sorted
  closed := h.closed
  nested := h.nested
  followed := h.followed
  first := by
    intro v hv hzero
    obtain ⟨hparent, hparentEdge⟩ := getD_found_of_mem node eid hother hv
    rw [hparent, hparentEdge]
    exact h.first v hv hzero
  reached := by
    intro v hv hpos
    obtain ⟨p, eid', hp⟩ := h.reached v hv hpos
    obtain ⟨hparent, hparentEdge⟩ := getD_found_of_mem node eid hother hv
    exact ⟨p, eid', hparent.trans hp.parent_eq, hparentEdge.trans hp.parentEdge_eq, hp.joins,
      hp.mem, hp.lt, hp.inside, hp.max⟩

theorem Flagged.found {eid other : Nat} (h : Flagged s stack) (hother : other ∉ s.preorder) :
    Flagged (s.found node other eid) stack := by
  intro eid'
  refine (h eid').trans (exists_congr fun v => and_congr_right fun hv => and_congr_right fun _ => ?_)
  rw [(getD_found_of_mem node eid hother hv).2]

/-- The search has come back from `other` to the topmost node of `stack`. -/
theorem Flagged.flag {eid other : Nat} (h : Flagged s (other :: stack)) (hs : Visited n m s)
    (heid : eid < m) (hmem : other ∈ s.preorder) (hstack : other ∉ stack)
    (hparentEdge : s.parentEdge.getD other none = some eid) : Flagged (s.flag eid) stack := by
  intro eid'
  rw [VisitState.flag, getD_set]
  constructor
  · intro htrue
    split at htrue
    · rename_i heq
      obtain ⟨rfl, -⟩ := heq
      exact ⟨other, hmem, hstack, hparentEdge⟩
    · obtain ⟨v, hv, hv', heid'⟩ := (h eid').1 htrue
      exact ⟨v, hv, fun hv => hv' (List.mem_cons_of_mem _ hv), heid'⟩
  · rintro ⟨v, hv, hv', heid'⟩
    split
    · rfl
    · rename_i hne
      refine (h eid').2 ⟨v, hv, ?_, heid'⟩
      rw [List.mem_cons, not_or]
      refine ⟨?_, hv'⟩
      rintro rfl
      have heq : eid = eid' := Option.some.inj (hparentEdge.symm.trans heid')
      exact hne ⟨heq, by rw [hs.tree_length]; exact heid⟩

/-! ### Leaving a node -/

theorem inside_leave {u v : Nat} (hs : Visited n m s) (hnode : node < n) (hv : v ∈ s.preorder) :
    Inside (s.leave node) stack u v ↔ Inside s (node :: stack) u v := by
  rw [Inside, Inside]
  refine and_congr_right fun _ => ?_
  rw [VisitState.leave, getD_set, List.mem_cons]
  by_cases h : node = u
  · subst h
    rw [if_pos ⟨rfl, by rw [hs.endOf_length]; exact hnode⟩]
    exact iff_of_true (.inr (place_lt v hv)) (.inl (.inl rfl))
  · rw [if_neg fun h' => h h'.1]
    exact or_congr_left ⟨.inr, fun h' => h'.resolve_left (Ne.symm h)⟩

/-- The topmost node is left, once its edges have been followed. -/
theorem Searched.leave (h : Searched edges incident s (node :: stack)) (hs : Visited n m s)
    (hnode : node < n)
    (hdone : ∀ eid ∈ incident.getD node [], ∀ edge, edges[eid]? = some edge →
      other edge node ∈ s.preorder ∧
        (s.place node ≤ s.place (other edge node) ∨ other edge node ∈ stack)) :
    Searched edges incident (s.leave node) stack := by
  obtain ⟨htop, hsorted⟩ := List.pairwise_cons.1 h.stack_sorted
  have hfresh : node ∉ stack := fun hmem => Nat.lt_irrefl _ (htop node hmem)
  have hmem : node ∈ s.preorder := h.stack_mem node List.mem_cons_self
  have hend : (s.leave node).endOf.getD node 0 = s.preorder.length := by
    rw [VisitState.leave, getD_set, if_pos ⟨rfl, by rw [hs.endOf_length]; exact hnode⟩]
  have hend' : ∀ {v}, v ≠ node → (s.leave node).endOf.getD v 0 = s.endOf.getD v 0 := by
    intro v hv
    rw [VisitState.leave, getD_set, if_neg fun h' => hv h'.1.symm]
  -- Closing `node` changes no subtree, it only takes `node` off the stack.
  have hin : ∀ {u v}, v ∈ s.preorder →
      (Inside (s.leave node) stack u v ↔ Inside s (node :: stack) u v) :=
    fun hv => inside_leave hs hnode hv
  have hcons : ∀ {v}, v ≠ node → v ∉ stack → v ∉ node :: stack := by
    intro v hv hv' hmem
    rcases List.mem_cons.1 hmem with rfl | hmem
    · exact hv rfl
    · exact hv' hmem
  refine ⟨h.nodup, h.number_eq, h.number_none,
    fun v hv => h.stack_mem v (List.mem_cons_of_mem _ hv), hsorted, ?_, ?_, h.first, ?_, ?_⟩
  · intro v hv hv'
    by_cases hvn : v = node
    · subst hvn
      rw [hend]
      exact ⟨place_lt v hv, Nat.le_refl _⟩
    · rw [hend' hvn]
      exact h.closed v hv (hcons hvn hv')
  · intro u hu hu' v hv hin'
    rw [hin hv] at hin'
    by_cases hun : u = node
    · subst hun
      -- What is on the stack was numbered before `node`, and so is outside its subtree.
      have hvs : v ∉ stack := fun hvs => Nat.not_le_of_lt (htop v hvs) hin'.1
      refine ⟨hvs, ?_⟩
      rw [hend]
      by_cases hvn : v = u
      · rw [hvn, hend]
      · rw [hend' hvn]
        exact (h.closed v hv (hcons hvn hvs)).2
    · -- A subtree that was closed before holds nothing of the stack.
      obtain ⟨hvs, hle⟩ := h.nested u hu (hcons hun hu') v hv hin'
      rw [List.mem_cons, not_or] at hvs
      rw [hend' hun, hend' hvs.1]
      exact ⟨hvs.2, hle⟩
  · intro v hv hpos
    obtain ⟨p, eid, hp⟩ := h.reached v hv hpos
    exact ⟨p, eid, hp.parent_eq, hp.parentEdge_eq, hp.joins, hp.mem, hp.lt, (hin hv).2 hp.inside,
      fun u hu hlt hu' => hp.max u hu hlt ((hin hv).1 hu')⟩
  · intro v hv hv' eid heid edge hedge
    by_cases hvn : v = node
    · subst hvn
      obtain ⟨hother, hle⟩ := hdone eid heid edge hedge
      refine ⟨hother, ?_⟩
      rw [hin hother, hin hv]
      rcases hle with hle | hmem'
      · exact .inl ⟨hle, .inl List.mem_cons_self⟩
      · exact .inr ⟨(htop _ hmem').le, .inl (List.mem_cons_of_mem _ hmem')⟩
    · obtain ⟨hother, hin'⟩ := h.followed v hv (hcons hvn hv') eid heid edge hedge
      refine ⟨hother, ?_⟩
      rw [hin hother, hin hv]
      exact hin'

end

end Sese
end Jstd
