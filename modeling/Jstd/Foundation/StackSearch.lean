import Mathlib.Data.List.GetD
import Mathlib.Data.List.Nodup
import Jstd.Foundation.Path

/-!
# StackSearch — a search whose stack holds the arcs still to be tried

The search pops an entry, skips it when its node has been visited, and otherwise visits the node and
pushes its arcs to nodes not visited.  A node may be on the stack many times; what makes the search
depth-first all the same is that the entries stand in the order in which they were pushed.

`LatestArcs` is what "depth-first" means for the list of visits: every node but the first is entered
along an arc from the most recent node that has one to it.
-/

namespace Jstd
namespace Foundation

variable {N A : Type}

/-- Every visit but the first is along an arc from the most recent node that has an arc to it. -/
def LatestArcs (Arc : N → A → N → Prop) (visits : List (Option A × N)) : Prop :=
  ∀ {j : Nat} {a : Option A} {v : N}, 0 < j → visits[j]? = some (a, v) →
    ∃ e, a = some e ∧ ∃ i u, i < j ∧ (visits.map Prod.snd)[i]? = some u ∧ Arc u e v ∧
      ∀ k w, i < k → k < j → (visits.map Prod.snd)[k]? = some w → ∀ e', ¬ Arc w e' v

/-- The visits of a whole search. -/
structure Traverses (Arc : N → A → N → Prop) (root : N) (visits : List (Option A × N)) :
    Prop where
  first : visits.head? = some (none, root)
  once : (visits.map Prod.snd).Nodup
  mem_iff : ∀ v, v ∈ visits.map Prod.snd ↔ Reaches (fun u w => ∃ e, Arc u e w) root v
  latest : LatestArcs Arc visits

/-- The search after some visits.  Each entry of the stack has the number of the visit it was pushed
at: these decrease, and no arc to a node that is not visited has been lost. -/
structure StackSearch (Arc : N → A → N → Prop) (root : N) (visits stack : List (Option A × N)) :
    Prop where
  first : visits.head? = some (none, root)
  once : (visits.map Prod.snd).Nodup
  latest : LatestArcs Arc visits
  pushed : ∃ tagged : List (Nat × Option A × N), tagged.map Prod.snd = stack ∧
    tagged.Pairwise (fun p q => q.1 ≤ p.1) ∧
    (∀ p ∈ tagged, ∃ e u, p.2.1 = some e ∧ (visits.map Prod.snd)[p.1]? = some u ∧
      Arc u e p.2.2) ∧
    ∀ i u e w, (visits.map Prod.snd)[i]? = some u → Arc u e w → w ∉ visits.map Prod.snd →
      ∃ p ∈ tagged, p.1 = i ∧ p.2.2 = w

/-- The entries that the visit of `v` pushes, given what is visited. -/
structure Pushes (Arc : N → A → N → Prop) (visits : List (Option A × N)) (v : N)
    (entries : List (Option A × N)) : Prop where
  sound : ∀ p ∈ entries, ∃ e, p.1 = some e ∧ Arc v e p.2
  complete : ∀ e w, Arc v e w → w ∉ visits.map Prod.snd → ∃ p ∈ entries, p.2 = w

namespace StackSearch

variable {Arc : N → A → N → Prop} {root : N} {visits stack : List (Option A × N)}

/-- The search after the root. -/
theorem start {entries : List (Option A × N)} (h : Pushes Arc [(none, root)] root entries) :
    StackSearch Arc root [(none, root)] entries where
  first := rfl
  once := List.nodup_singleton root
  latest := by
    intro j a v hj hv
    -- Only the root has been visited.
    rw [List.getElem?_eq_none (Nat.succ_le_of_lt hj)] at hv
    cases hv
  pushed := by
    refine ⟨entries.map fun p => (0, p), ?_, ?_, ?_, ?_⟩
    · rw [List.map_map]
      exact List.map_id _
    · exact List.pairwise_map.2 (List.pairwise_of_forall fun _ _ => Nat.le_refl 0)
    · intro p hp
      obtain ⟨q, hq, rfl⟩ := List.mem_map.1 hp
      obtain ⟨e, he, harc⟩ := h.sound q hq
      exact ⟨e, root, he, rfl, harc⟩
    · intro i u e w hu harc hw
      obtain ⟨hlt, rfl⟩ := List.getElem?_eq_some_iff.1 hu
      obtain rfl : i = 0 := by simpa using hlt
      obtain ⟨q, hq, hqw⟩ := h.complete e w harc hw
      exact ⟨(0, q), List.mem_map_of_mem hq, rfl, hqw⟩

/-- An entry whose node has been visited is dropped. -/
theorem skip {entry : Option A × N} (h : StackSearch Arc root visits (entry :: stack))
    (hentry : entry.2 ∈ visits.map Prod.snd) : StackSearch Arc root visits stack where
  first := h.first
  once := h.once
  latest := h.latest
  pushed := by
    obtain ⟨tagged, htagged, hsorted, hsound, hcomplete⟩ := h.pushed
    obtain ⟨top, tagged, rfl, rfl, rfl⟩ := List.map_eq_cons_iff.1 htagged
    refine ⟨tagged, rfl, hsorted.of_cons, fun p hp => hsound p (List.mem_cons_of_mem top hp), ?_⟩
    -- The entry that goes leads to a node already visited, so it is not the one asked for.
    intro i u e w hu harc hw
    obtain ⟨p, hp, hpi, rfl⟩ := hcomplete i u e w hu harc hw
    rcases List.mem_cons.1 hp with rfl | hp
    · exact absurd hentry hw
    · exact ⟨p, hp, hpi, rfl⟩

/-- An entry whose node has not been visited is visited, and its arcs are pushed. -/
theorem visit {entry : Option A × N} {entries : List (Option A × N)}
    (h : StackSearch Arc root visits (entry :: stack)) (hentry : entry.2 ∉ visits.map Prod.snd)
    (hpush : Pushes Arc (visits ++ [entry]) entry.2 entries) :
    StackSearch Arc root (visits ++ [entry]) (entries ++ stack) := by
  obtain ⟨tagged, htagged, hsorted, hsound, hcomplete⟩ := h.pushed
  obtain ⟨top, tagged, rfl, rfl, rfl⟩ := List.map_eq_cons_iff.1 htagged
  have hnodes : (visits ++ [top.2]).map Prod.snd = visits.map Prod.snd ++ [top.2.2] :=
    List.map_append
  -- What has been visited keeps its position, and the only new position is the last.
  have hold : ∀ {i : Nat} {u : N}, (visits.map Prod.snd)[i]? = some u →
      ((visits ++ [top.2]).map Prod.snd)[i]? = some u := by
    intro i u hu
    rw [hnodes, List.getElem?_append_left (List.getElem?_eq_some_iff.1 hu).1, hu]
  have hlast : ((visits ++ [top.2]).map Prod.snd)[visits.length]? = some top.2.2 := by
    rw [hnodes, ← List.length_map Prod.snd, List.getElem?_concat_length]
  have hcases : ∀ {i : Nat} {u : N}, ((visits ++ [top.2]).map Prod.snd)[i]? = some u →
      (visits.map Prod.snd)[i]? = some u ∨ i = visits.length ∧ u = top.2.2 := by
    intro i u hu
    rw [hnodes] at hu
    rcases Nat.lt_or_ge i (visits.map Prod.snd).length with hlt | hge
    · rw [List.getElem?_append_left hlt] at hu
      exact .inl hu
    · have hi : i = visits.length := by
        have := (List.getElem?_eq_some_iff.1 hu).1
        simp at this hge
        omega
      rw [hi, ← List.length_map Prod.snd, List.getElem?_concat_length] at hu
      exact .inr ⟨hi, (Option.some.inj hu).symm⟩
  -- The entry on top was pushed at the most recent visit that has an arc to its node.
  obtain ⟨e, u, he, hu, harc⟩ := hsound top List.mem_cons_self
  have htop : ∀ k w, top.1 < k → (visits.map Prod.snd)[k]? = some w → ∀ e', ¬ Arc w e' top.2.2 := by
    intro k w hk hw e' harc'
    obtain ⟨p, hp, rfl, -⟩ := hcomplete k w e' top.2.2 hw harc' hentry
    rcases List.mem_cons.1 hp with rfl | hp
    · exact Nat.lt_irrefl _ hk
    · exact Nat.not_lt.2 ((List.pairwise_cons.1 hsorted).1 p hp) hk
  constructor
  · rw [List.head?_append, h.first]
    rfl
  · rw [hnodes]
    refine List.nodup_append.2 ⟨h.once, List.nodup_singleton _, ?_⟩
    intro v hv w hw
    rw [List.mem_singleton.1 hw]
    rintro rfl
    exact hentry hv
  · -- The visits before this one are as they were; this one is along the entry on top.
    intro j a v hj hv
    rcases Nat.lt_or_ge j visits.length with hlt | hge
    · rw [List.getElem?_append_left hlt] at hv
      obtain ⟨e, he, i, u, hij, hu, harc, hno⟩ := h.latest hj hv
      refine ⟨e, he, i, u, hij, hold hu, harc, fun k w hik hkj hw => ?_⟩
      rcases hcases hw with hw | ⟨rfl, -⟩
      · exact hno k w hik hkj hw
      · omega
    · have hjlen : j = visits.length := by
        have := (List.getElem?_eq_some_iff.1 hv).1
        simp at this
        omega
      subst hjlen
      rw [List.getElem?_concat_length, Option.some.injEq] at hv
      rw [hv] at he harc htop
      refine ⟨e, he, top.1, u, ?_, hold hu, harc, fun k w hik hkj hw => ?_⟩
      · simpa using (List.getElem?_eq_some_iff.1 hu).1
      · rcases hcases hw with hw | ⟨rfl, -⟩
        · exact htop k w hik hw
        · exact absurd hkj (Nat.lt_irrefl _)
  · -- The new entries bear the number of this visit, and stand above all older ones.
    refine ⟨entries.map (fun p => (visits.length, p)) ++ tagged, ?_, ?_, ?_, ?_⟩
    · rw [List.map_append, List.map_map]
      congr 1
      exact List.map_id _
    · refine List.pairwise_append.2 ⟨?_, hsorted.of_cons, ?_⟩
      · exact List.pairwise_map.2 (List.pairwise_of_forall fun _ _ => Nat.le_refl _)
      · intro p hp q hq
        obtain ⟨p, -, rfl⟩ := List.mem_map.1 hp
        obtain ⟨-, w, -, hw, -⟩ := hsound q (List.mem_cons_of_mem top hq)
        have := (List.getElem?_eq_some_iff.1 hw).1
        simp at this
        omega
    · intro p hp
      rcases List.mem_append.1 hp with hp | hp
      · obtain ⟨q, hq, rfl⟩ := List.mem_map.1 hp
        obtain ⟨e, he, harc⟩ := hpush.sound q hq
        exact ⟨e, top.2.2, he, hlast, harc⟩
      · obtain ⟨e, u, he, hu, harc⟩ := hsound p (List.mem_cons_of_mem top hp)
        exact ⟨e, u, he, hold hu, harc⟩
    · intro i u e w hu harc hw
      -- The arc of an older visit is where it was; the arcs of this one have been pushed.
      rcases hcases hu with hu | ⟨rfl, rfl⟩
      · rw [hnodes, List.mem_append, List.mem_singleton, not_or] at hw
        obtain ⟨p, hp, hpi, rfl⟩ := hcomplete i u e w hu harc hw.1
        rcases List.mem_cons.1 hp with rfl | hp
        · exact absurd rfl hw.2
        · exact ⟨p, List.mem_append_right _ hp, hpi, rfl⟩
      · obtain ⟨p, hp, rfl⟩ := hpush.complete e w harc hw
        exact ⟨_, List.mem_append_left _ (List.mem_map_of_mem hp), rfl, rfl⟩

/-- Every entry of the stack is an arc from a node that has been visited. -/
theorem arc_of_mem (h : StackSearch Arc root visits stack) {entry : Option A × N}
    (hentry : entry ∈ stack) : ∃ e u, entry.1 = some e ∧ Arc u e entry.2 := by
  obtain ⟨tagged, rfl, -, hsound, -⟩ := h.pushed
  obtain ⟨p, hp, rfl⟩ := List.mem_map.1 hentry
  obtain ⟨e, u, he, -, harc⟩ := hsound p hp
  exact ⟨e, u, he, harc⟩

/-- When the stack is empty every arc from a visited node leads to one. -/
theorem finish (h : StackSearch Arc root visits []) : Traverses Arc root visits := by
  refine ⟨h.first, h.once, fun v => ⟨?_, ?_⟩, h.latest⟩
  · -- Every visit is reached from an earlier one.
    have hreach : ∀ (j : Nat) (v : N), (visits.map Prod.snd)[j]? = some v →
        Reaches (fun u w => ∃ e, Arc u e w) root v := by
      intro j
      induction j using Nat.strongRecOn with
      | _ j ih =>
          intro v hv
          rw [List.getElem?_map, Option.map_eq_some_iff] at hv
          obtain ⟨⟨a, v⟩, hvisit, rfl⟩ := hv
          rcases Nat.eq_zero_or_pos j with rfl | hj
          · rw [← List.head?_eq_getElem?, h.first] at hvisit
            cases hvisit
            exact .refl
          · obtain ⟨e, -, i, u, hij, hu, harc, -⟩ := h.latest hj hvisit
            exact (ih i hij u hu).tail ⟨e, harc⟩
    intro hv
    obtain ⟨j, hj⟩ := List.mem_iff_getElem?.1 hv
    exact hreach j v hj
  · intro hreach
    induction hreach with
    | refl =>
        have hroot := List.mem_of_mem_head? (h.first ▸ rfl : (none, root) ∈ visits.head?)
        exact List.mem_map_of_mem hroot
    | tail _ huv ih =>
        obtain ⟨e, harc⟩ := huv
        -- An arc to a node not visited would still be on the stack.
        by_contra hv
        obtain ⟨i, hi⟩ := List.mem_iff_getElem?.1 ih
        obtain ⟨tagged, htagged, -, -, hcomplete⟩ := h.pushed
        obtain ⟨p, hp, -, -⟩ := hcomplete i _ e _ hi harc hv
        rw [List.map_eq_nil_iff.1 htagged] at hp
        cases hp

end StackSearch

/-- Every visit is reached through earlier ones. -/
theorem Traverses.exists_path {Arc : N → A → N → Prop} {root : N} {visits : List (Option A × N)}
    (h : Traverses Arc root visits) (j : Nat) :
    ∀ v, (visits.map Prod.snd)[j]? = some v →
      ∃ l, IsPath (fun u w => ∃ e, Arc u e w) root v l ∧
        ∀ x ∈ l, ∃ i, i ≤ j ∧ (visits.map Prod.snd)[i]? = some x := by
  -- By induction on the position: the last edge is the one the visit came along.
  induction j using Nat.strongRecOn with
  | _ j ih =>
      intro v hv
      have hvisit := hv
      rw [List.getElem?_map, Option.map_eq_some_iff] at hvisit
      obtain ⟨⟨a, v⟩, hvisit, rfl⟩ := hvisit
      rcases Nat.eq_zero_or_pos j with rfl | hj
      · rw [← List.head?_eq_getElem?, h.first] at hvisit
        cases hvisit
        refine ⟨[root], .single root, fun x hx => ⟨0, Nat.le_refl 0, ?_⟩⟩
        rw [List.mem_singleton.1 hx]
        exact hv
      · obtain ⟨e, -, i, u, hij, hu, harc, -⟩ := h.latest hj hvisit
        obtain ⟨l, hl, hearlier⟩ := ih i hij u hu
        refine ⟨_, hl.snoc ⟨e, harc⟩, fun x hx => ?_⟩
        rcases List.mem_append.1 hx with hx | hx
        · obtain ⟨k, hk, hxk⟩ := hearlier x hx
          exact ⟨k, by omega, hxk⟩
        · rw [List.mem_singleton.1 hx]
          exact ⟨j, Nat.le_refl j, hv⟩

/-- What dominates a node is visited before it. -/
theorem Traverses.dominator_first {Arc : N → A → N → Prop} {root d n : N}
    {visits : List (Option A × N)} (h : Traverses Arc root visits) {j : Nat}
    (hn : (visits.map Prod.snd)[j]? = some n)
    (hdom : Dominates (fun u w => ∃ e, Arc u e w) root d n) :
    ∃ i, i ≤ j ∧ (visits.map Prod.snd)[i]? = some d := by
  obtain ⟨l, hl, hearlier⟩ := h.exists_path j n hn
  exact hearlier d (hdom l hl)

end Foundation
end Jstd
