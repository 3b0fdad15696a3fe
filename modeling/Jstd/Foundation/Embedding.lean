import Jstd.Foundation.Dominance

/-!
# Embedding — one graph inside another under new names

`f` gives each vertex of `S` a vertex of its own, and carries the edges of one graph to those of the
other.  What is said of the one by walks can then be said of the other under the new names.
-/

namespace Jstd
namespace Foundation

variable {V W : Type} {E : V → V → Prop} {F : W → W → Prop} {S : Set V} {f : V → W}

/-- The edges of `F` are the images of the edges of `E`, all of which lie in `S`. -/
structure Embeds (E : V → V → Prop) (F : W → W → Prop) (S : Set V) (f : V → W) : Prop where
  inj : Set.InjOn f S
  ends : ∀ {a b}, E a b → a ∈ S ∧ b ∈ S
  edge_iff : ∀ {u w}, F u w ↔ ∃ a b, E a b ∧ f a = u ∧ f b = w

namespace Embeds

variable {r a b d n : V} {l : List V}

/-- A walk that starts in `S` stays there. -/
theorem mem_of_path (h : Embeds E F S f) (ha : a ∈ S) (hl : IsPath E a b l) : ∀ x ∈ l, x ∈ S := by
  induction hl with
  | single u =>
      intro x hx
      rw [List.mem_singleton.1 hx]
      exact ha
  | cons hedge _ ih =>
      intro x hx
      rcases List.mem_cons.1 hx with rfl | hx
      · exact ha
      · exact ih (h.ends hedge).2 x hx

theorem path (h : Embeds E F S f) (hl : IsPath E a b l) : IsPath F (f a) (f b) (l.map f) := by
  induction hl with
  | single u => exact .single (f u)
  | cons hedge _ ih => exact .cons (h.edge_iff.2 ⟨_, _, hedge, rfl, rfl⟩) ih

/-- A walk from the image of a vertex is the image of a walk. -/
theorem exists_path (h : Embeds E F S f) {u w : W} {k : List W} (hk : IsPath F u w k) :
    ∀ {a}, a ∈ S → f a = u → ∃ b l, IsPath E a b l ∧ f b = w ∧ l.map f = k := by
  induction hk with
  | single u =>
      intro a _ hau
      exact ⟨a, [a], .single a, hau, congrArg (fun u => [u]) hau⟩
  | cons hedge _ ih =>
      intro a ha hau
      obtain ⟨a', b, hab, ha'u, hbv⟩ := h.edge_iff.1 hedge
      -- The edge leaves the same vertex, since its name is the same.
      obtain rfl : a' = a := h.inj (h.ends hab).1 ha (ha'u.trans hau.symm)
      obtain ⟨c, l, hl, hc, hmap⟩ := ih (h.ends hab).2 hbv
      exact ⟨c, _, .cons hab hl, hc, by rw [List.map_cons, hau, hmap]⟩

theorem reaches_iff (h : Embeds E F S f) (hr : r ∈ S) (hn : n ∈ S) :
    Reaches F (f r) (f n) ↔ Reaches E r n := by
  constructor
  · intro hreach
    obtain ⟨k, hk⟩ := exists_path_of_reaches hreach
    obtain ⟨b, l, hl, hb, -⟩ := h.exists_path hk hr rfl
    obtain rfl := h.inj (h.mem_of_path hr hl b hl.last_mem) hn hb
    exact hl.reaches
  · intro hreach
    obtain ⟨l, hl⟩ := exists_path_of_reaches hreach
    exact (h.path hl).reaches

theorem mem_map_iff (h : Embeds E F S f) (hd : d ∈ S) (hl : ∀ x ∈ l, x ∈ S) :
    f d ∈ l.map f ↔ d ∈ l := by
  constructor
  · intro hmem
    obtain ⟨x, hx, hxd⟩ := List.mem_map.1 hmem
    exact h.inj (hl x hx) hd hxd ▸ hx
  · exact List.mem_map_of_mem

theorem dominates_iff (h : Embeds E F S f) (hr : r ∈ S) (hd : d ∈ S) (hn : n ∈ S) :
    Dominates F (f r) (f d) (f n) ↔ Dominates E r d n := by
  constructor
  · intro hdom l hl
    exact (h.mem_map_iff hd (h.mem_of_path hr hl)).1 (hdom _ (h.path hl))
  · intro hdom k hk
    obtain ⟨b, l, hl, hb, rfl⟩ := h.exists_path hk hr rfl
    have hmem := h.mem_of_path hr hl
    obtain rfl := h.inj (hmem b hl.last_mem) hn hb
    exact (h.mem_map_iff hd hmem).2 (hdom l hl)

/-- Whatever dominates a vertex that is reached has a name. -/
theorem exists_of_dominates (h : Embeds E F S f) (hr : r ∈ S) (hreach : Reaches E r n) {c : W}
    (hc : Dominates F (f r) c (f n)) : ∃ d ∈ S, f d = c := by
  obtain ⟨l, hl⟩ := exists_path_of_reaches hreach
  obtain ⟨d, hd, hdc⟩ := List.mem_map.1 (hc _ (h.path hl))
  exact ⟨d, h.mem_of_path hr hl d hd, hdc⟩

theorem isIdom_iff (h : Embeds E F S f) (hr : r ∈ S) (hd : d ∈ S) (hn : n ∈ S)
    (hreach : Reaches E r n) : IsIdom F (f r) (f d) (f n) ↔ IsIdom E r d n := by
  constructor
  · intro hidom
    have hdom := (h.dominates_iff hr hd hn).1 hidom.dominates
    refine ⟨fun heq => hidom.ne (congrArg f heq), hdom, fun c hcn hc => ?_⟩
    -- A dominator of a vertex that is reached lies on a walk from `r`.
    obtain ⟨l, hl⟩ := exists_path_of_reaches hreach
    have hcS := h.mem_of_path hr hl c (hc l hl)
    refine (h.dominates_iff hr hcS hd).1 (hidom.last (f c) (fun heq => ?_) ?_)
    · exact hcn (h.inj hcS hn heq)
    · exact (h.dominates_iff hr hcS hn).2 hc
  · intro hidom
    have hdom := (h.dominates_iff hr hd hn).2 hidom.dominates
    refine ⟨fun heq => hidom.ne (h.inj hd hn heq), hdom, fun w hwn hw => ?_⟩
    obtain ⟨c, hcS, rfl⟩ := h.exists_of_dominates hr hreach hw
    refine (h.dominates_iff hr hcS hd).2 (hidom.last c (fun heq => hwn (congrArg f heq)) ?_)
    exact (h.dominates_iff hr hcS hn).1 hw

end Embeds

end Foundation
end Jstd
