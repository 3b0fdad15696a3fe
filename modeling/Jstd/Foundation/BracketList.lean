import Mathlib.Data.List.Sort
import Mathlib.Order.Lattice.Nat
import Jstd.Foundation.DepthFirstTree

/-!
# BracketList — naming the cycle classes of a depth-first tree

The brackets of a vertex are the back edges that cover it.  Two tree edges are cycle equivalent when
their vertices have the same brackets; to compare two sets by their last element and their size
only, the algorithm adds capping edges.  Where brackets from two children go above a vertex, and
none of the vertex itself goes as high as the second highest of them, a cap from the vertex to that
height keeps the brackets of the first child from being last.

A cap whose height is the vertex itself caps nothing.  It ends where it begins, so it distinguishes
the vertex from every other one: `Spurious` is the one case in which the names are wrong.
-/

namespace Jstd
namespace Foundation
namespace DepthFirstTree

variable {V I : Type} {G : Multigraph V I} (T : DepthFirstTree G)

/-! ## The ends of a back edge -/

/-- The end of an edge with the larger number. -/
def low (i : I) : V :=
  if T.number (G.src i) ≤ T.number (G.dst i) then G.dst i else G.src i

/-- The end of an edge with the smaller number. -/
def up (i : I) : V :=
  if T.number (G.src i) ≤ T.number (G.dst i) then G.src i else G.dst i

variable {T} {u v w : V} {i j : I} {k : Nat}

theorem anc_up_low (hi : G.IsEdge i) : T.Anc (T.up i) (T.low i) := by
  have hsrc := T.src_mem hi
  have hdst := T.dst_mem hi
  rw [up, low]
  split
  · rename_i hle
    rcases T.comparable hi with ⟨-, hlt⟩ | ⟨hle', hlt⟩
    · exact ⟨hsrc, hdst, hle, hlt⟩
    · rw [T.number_inj hsrc hdst (Nat.le_antisymm hle hle')]
      exact .refl hdst
  · rename_i hle
    rcases T.comparable hi with ⟨hle', -⟩ | ⟨hle', hlt⟩
    · exact absurd hle' hle
    · exact ⟨hdst, hsrc, hle', hlt⟩

/-- A back edge covers the vertices between its ends, the lower one included. -/
theorem covers_iff (hi : G.IsEdge i) :
    T.Covers v i ↔ T.Anc v (T.low i) ∧ T.number (T.up i) < T.number v := by
  have hends : T.Covers v i ↔ ¬ (T.Anc v (T.up i) ↔ T.Anc v (T.low i)) := by
    rw [up, low]
    split
    · exact Iff.rfl
    · exact not_congr Iff.comm
  have hup := anc_up_low (T := T) hi
  rw [hends]
  constructor
  · intro h
    have hlow : T.Anc v (T.low i) := by
      by_contra hlow
      exact h (iff_of_false (fun hv => hlow (hv.trans hup)) hlow)
    refine ⟨hlow, ?_⟩
    by_contra hle
    exact h (iff_of_true (hlow.of_le hup (Nat.le_of_not_lt hle)) hlow)
  · rintro ⟨hlow, hlt⟩ h
    exact Nat.not_le_of_lt hlt (h.2 hlow).le

/-! ## Caps -/

variable (T) in
/-- A back edge from below `v` goes up to a number of at most `k`. -/
def Reaches (v : V) (k : Nat) : Prop :=
  ∃ i, T.IsBack i ∧ T.Anc v (T.low i) ∧ T.number (T.up i) ≤ k

variable (T) in
/-- One of `v` itself does. -/
def ReachesHere (v : V) (k : Nat) : Prop :=
  ∃ i, T.IsBack i ∧ T.low i = v ∧ T.number (T.up i) ≤ k

variable (T) in
/-- Those from below two children do. -/
def ReachesTwice (v : V) (k : Nat) : Prop :=
  ∃ c d, T.IsChild v c ∧ T.IsChild v d ∧ c ≠ d ∧ T.Reaches c k ∧ T.Reaches d k

variable (T) in
/-- The height of the second highest child. -/
noncomputable def capNumber (v : V) : Nat :=
  sInf {k | T.ReachesTwice v k}

variable (T) in
structure HasCap (v : V) : Prop where
  twice : ∃ k, T.ReachesTwice v k
  not_here : ¬ T.ReachesHere v (T.capNumber v)

variable (T) in
/-- The cap of `v` leads to `v`. -/
structure Spurious (v : V) : Prop where
  mem : T.Mem v
  ne_root : v ≠ T.root
  hasCap : T.HasCap v
  capNumber_eq : T.capNumber v = T.number v

theorem Reaches.mono {k' : Nat} (h : T.Reaches v k) (hle : k ≤ k') : T.Reaches v k' := by
  obtain ⟨i, hi, hlow, hup⟩ := h
  exact ⟨i, hi, hlow, hup.trans hle⟩

theorem Reaches.of_anc (h : T.Reaches v k) (huv : T.Anc u v) : T.Reaches u k := by
  obtain ⟨i, hi, hlow, hup⟩ := h
  exact ⟨i, hi, huv.trans hlow, hup⟩

theorem ReachesTwice.reaches (h : T.ReachesTwice v k) : T.Reaches v k := by
  obtain ⟨c, d, hc, -, -, hcover, -⟩ := h
  exact hcover.of_anc hc.anc

theorem capNumber_spec (h : ∃ k, T.ReachesTwice v k) : T.ReachesTwice v (T.capNumber v) :=
  Nat.sInf_mem (s := {k | T.ReachesTwice v k}) h

theorem capNumber_le (h : T.ReachesTwice v k) : T.capNumber v ≤ k :=
  Nat.sInf_le (s := {k | T.ReachesTwice v k}) h

/-- Something goes from below a child up to the vertex or above it. -/
theorem IsChild.reaches {c : V} (hcyclic : G.Cyclic) (hc : T.IsChild v c) :
    T.Reaches c (T.number v) := by
  obtain ⟨i, hi, hcover⟩ := exists_covers hcyclic hc.mem hc.ne_root
  obtain ⟨hlow, hlt⟩ := (covers_iff hi.isEdge).1 hcover
  refine ⟨i, hi, hlow, ?_⟩
  have hup : T.Anc (T.up i) c := (anc_up_low hi.isEdge).of_le hlow hlt.le
  refine (hc.anc_of_ne hup ?_).le
  intro heq
  rw [heq] at hlt
  exact Nat.lt_irrefl _ hlt

theorem HasCap.capNumber_le_number (hcyclic : G.Cyclic) (h : T.HasCap v) :
    T.capNumber v ≤ T.number v := by
  obtain ⟨k, c, d, hc, hd, hne, -, -⟩ := h.twice
  exact capNumber_le ⟨c, d, hc, hd, hne, hc.reaches hcyclic, hd.reaches hcyclic⟩

/-- The height of a cap is the upper end of a back edge from below. -/
theorem HasCap.exists_back (h : T.HasCap v) :
    ∃ i, T.IsBack i ∧ T.Anc v (T.low i) ∧ T.number (T.up i) = T.capNumber v := by
  obtain ⟨c, d, hc, hd, hne, ⟨i, hi, hilow, hiup⟩, ⟨j, hj, hjlow, hjup⟩⟩ := capNumber_spec h.twice
  have hmin : T.capNumber v ≤ max (T.number (T.up i)) (T.number (T.up j)) :=
    capNumber_le ⟨c, d, hc, hd, hne, ⟨i, hi, hilow, Nat.le_max_left _ _⟩,
      ⟨j, hj, hjlow, Nat.le_max_right _ _⟩⟩
  rcases Nat.le_total (T.number (T.up i)) (T.number (T.up j)) with hle | hle
  · rw [Nat.max_eq_right hle] at hmin
    exact ⟨j, hj, hd.anc.trans hjlow, Nat.le_antisymm hjup hmin⟩
  · rw [Nat.max_eq_left hle] at hmin
    exact ⟨i, hi, hc.anc.trans hilow, Nat.le_antisymm hiup hmin⟩

/-- A cap over `v` from a vertex below it comes with brackets of two children. -/
theorem HasCap.exists_covers (h : T.HasCap u) (hvu : T.Anc v u)
    (hlt : T.capNumber u < T.number v) :
    ∃ c d i j, T.IsChild u c ∧ T.IsChild u d ∧ c ≠ d ∧ (T.IsBack i ∧ T.Covers v i) ∧
      (T.IsBack j ∧ T.Covers v j) ∧ T.Anc c (T.low i) ∧ T.Anc d (T.low j) := by
  obtain ⟨c, d, hc, hd, hne, ⟨i, hi, hilow, hiup⟩, ⟨j, hj, hjlow, hjup⟩⟩ := capNumber_spec h.twice
  refine ⟨c, d, i, j, hc, hd, hne, ⟨hi, ?_⟩, ⟨hj, ?_⟩, hilow, hjlow⟩
  · exact (covers_iff hi.isEdge).2
      ⟨hvu.trans (hc.anc.trans hilow), hiup.trans_lt hlt⟩
  · exact (covers_iff hj.isEdge).2
      ⟨hvu.trans (hd.anc.trans hjlow), hjup.trans_lt hlt⟩

/-! ## Bracket lists -/

/-- What a bracket list holds: back edges, and the caps of vertices. -/
inductive Item (V I : Type)
  | edge (i : I)
  | cap (v : V)

variable (T) in
def IsItem : Item V I → Prop
  | .edge i => T.IsBack i
  | .cap v => T.HasCap v

variable (T) in
/-- Where an item begins. -/
def itemLow : Item V I → V
  | .edge i => T.low i
  | .cap v => v

variable (T) in
/-- The number of the vertex where an item ends. -/
noncomputable def itemUp : Item V I → Nat
  | .edge i => T.number (T.up i)
  | .cap v => T.capNumber v

variable (T) in
/-- The items that begin below `v` and end above it, and the cap of `v`. -/
structure Listed (v : V) (x : Item V I) : Prop where
  isItem : T.IsItem x
  anc : T.Anc v (T.itemLow x)
  above : T.itemUp x < T.number v ∨ x = .cap v

variable {x y : Item V I}

theorem IsItem.low_mem (hx : T.IsItem x) : T.Mem (T.itemLow x) := by
  cases x with
  | edge i => exact (anc_up_low (IsBack.isEdge hx)).right_mem
  | cap v =>
      obtain ⟨k, c, d, hc, -⟩ := HasCap.twice hx
      exact hc.anc.left_mem

theorem listed_edge : T.Listed v (.edge i) ↔ T.IsBack i ∧ T.Covers v i := by
  constructor
  · rintro ⟨hi, hanc, hlt | heq⟩
    · exact ⟨hi, (covers_iff hi.isEdge).2 ⟨hanc, hlt⟩⟩
    · cases heq
  · rintro ⟨hi, hcover⟩
    obtain ⟨hanc, hlt⟩ := (covers_iff hi.isEdge).1 hcover
    exact ⟨hi, hanc, .inl hlt⟩

theorem Listed.reaches (hx : T.Listed v x) (hanc : T.Anc w (T.itemLow x)) :
    T.Reaches w (T.itemUp x) := by
  cases x with
  | edge i => exact ⟨i, hx.isItem, hanc, Nat.le_refl _⟩
  | cap u =>
      have hcap : T.HasCap u := hx.isItem
      exact (capNumber_spec hcap.twice).reaches.of_anc hanc

/-- An item that ends above a child ends above the vertex, or at it. -/
theorem IsItem.itemUp_le {c : V} (hcyclic : G.Cyclic) (hx : T.IsItem x) (hc : T.IsChild v c)
    (hanc : T.Anc c (T.itemLow x)) (hlt : T.itemUp x < T.number c) :
    T.itemUp x ≤ T.number v := by
  have hend : ∃ a, T.Anc a (T.itemLow x) ∧ T.number a = T.itemUp x := by
    cases x with
    | edge i => exact ⟨T.up i, anc_up_low (IsBack.isEdge hx), rfl⟩
    | cap u =>
        have hcap : T.HasCap u := hx
        obtain ⟨i, hi, hlow, hup⟩ := hcap.exists_back
        refine ⟨T.up i, (anc_up_low hi.isEdge).of_le hlow ?_, hup⟩
        rw [hup]
        exact hcap.capNumber_le_number hcyclic
  obtain ⟨a, ha, hnumber⟩ := hend
  rw [← hnumber] at hlt ⊢
  refine (hc.anc_of_ne (ha.of_le hanc hlt.le) ?_).le
  rintro rfl
  exact Nat.lt_irrefl _ hlt

/-! ### The order of a list -/

variable (T) in
/-- The search leaves `u` before it leaves `v`. -/
def Before (u v : V) : Prop :=
  u ≠ v ∧ (T.Anc v u ∨ T.fin u ≤ T.number v)

theorem Before.asymm (hu : T.Mem u) (hv : T.Mem v) (h : T.Before u v) : ¬ T.Before v u := by
  have hu' := T.number_lt_fin hu
  have hv' := T.number_lt_fin hv
  rintro ⟨-, h'⟩
  rcases h.2 with hanc | hle
  · rcases h' with hanc' | hle'
    · exact h.1 (hanc'.antisymm hanc)
    · have := hanc.lt_fin
      omega
  · rcases h' with hanc' | hle'
    · have := hanc'.lt_fin
      omega
    · omega

section

variable [LinearOrder I]

/-- Back edges of one vertex by name, and then its cap. -/
def Sooner : Item V I → Item V I → Prop
  | .edge i, .edge j => i < j
  | .edge _, .cap _ => True
  | .cap _, _ => False

theorem Sooner.asymm (h : Sooner x y) : ¬ Sooner y x := by
  cases x with
  | edge i =>
      cases y with
      | edge j => exact fun h' => lt_asymm h h'
      | cap v => exact fun h' => h'
  | cap v => exact h.elim

variable (T) in
/-- Items are listed in the order in which the search leaves the vertices they begin at. -/
def Precedes (x y : Item V I) : Prop :=
  T.Before (T.itemLow x) (T.itemLow y) ∨ (T.itemLow x = T.itemLow y ∧ Sooner x y)

theorem Precedes.asymm (hx : T.Mem (T.itemLow x)) (hy : T.Mem (T.itemLow y))
    (h : T.Precedes x y) : ¬ T.Precedes y x := by
  rintro (h' | ⟨heq', h'⟩)
  · rcases h with h | ⟨heq, -⟩
    · exact h.asymm hx hy h'
    · exact h'.1 heq.symm
  · rcases h with h | ⟨-, h⟩
    · exact h.1 heq'.symm
    · exact h.asymm h'

variable (T) in
structure IsBracketList (v : V) (l : List (Item V I)) : Prop where
  mem : ∀ x, x ∈ l ↔ T.Listed v x
  ordered : l.Pairwise T.Precedes

namespace IsBracketList

variable {l l' : List (Item V I)}

theorem low_mem (h : T.IsBracketList v l) (hx : x ∈ l) : T.Mem (T.itemLow x) :=
  ((h.mem x).1 hx).isItem.low_mem

theorem nodup (h : T.IsBracketList v l) : l.Nodup := by
  refine h.ordered.imp_of_mem ?_
  rintro x y hx hy hxy rfl
  exact hxy.asymm (h.low_mem hx) (h.low_mem hy) hxy

theorem eq (h : T.IsBracketList v l) (h' : T.IsBracketList v l') : l = l' := by
  have hperm : l.Perm l' := by
    rw [List.perm_ext_iff_of_nodup h.nodup h'.nodup]
    intro x
    rw [h.mem, h'.mem]
  refine hperm.eq_of_pairwise ?_ h.ordered h'.ordered
  intro x y hx hy hxy hyx
  exact absurd hyx (hxy.asymm (h.low_mem hx) (h'.low_mem hy))

/-- What comes before the last item. -/
theorem precedes_last (h : T.IsBracketList v l) (hlast : l.getLast? = some x) (hy : y ∈ l) :
    y = x ∨ T.Precedes y x := by
  obtain ⟨l', rfl⟩ := List.getLast?_eq_some_iff.1 hlast
  rcases List.mem_append.1 hy with hy | hy
  · exact .inr ((List.pairwise_append.1 h.ordered).2.2 y hy x (List.mem_singleton.2 rfl))
  · exact .inl (List.mem_singleton.1 hy)

/-- Where the last item begins, everything in the list begins or has begun below. -/
theorem anc_low_last (h : T.IsBracketList v l) (hlast : l.getLast? = some x) (hy : y ∈ l) :
    T.Anc (T.itemLow x) (T.itemLow y) := by
  have hx := (h.mem x).1 (List.mem_of_getLast? hlast)
  have hy' := (h.mem y).1 hy
  rcases h.precedes_last hlast hy with rfl | ⟨-, hanc | hfin⟩ | ⟨heq, -⟩
  · exact .refl hy'.isItem.low_mem
  · exact hanc
  · -- Otherwise both go above the vertex where their ways part, and so does an item of that vertex.
    have hxy : ¬ T.Anc (T.itemLow x) (T.itemLow y) := by
      intro hanc
      have := T.number_lt_fin hy'.isItem.low_mem
      have := hanc.le
      omega
    have hyx : ¬ T.Anc (T.itemLow y) (T.itemLow x) := by
      intro hanc
      have := hanc.lt_fin
      omega
    have hyup : T.itemUp y < T.number v := by
      rcases hy'.above with hlt | rfl
      · exact hlt
      · exact absurd hx.anc hyx
    have hxup : T.itemUp x < T.number v := by
      rcases hx.above with hlt | rfl
      · exact hlt
      · exact absurd hy'.anc hxy
    obtain ⟨m, c, d, hvm, hc, hd, hne, hcy, hdx⟩ :=
      exists_fork hy'.isItem.low_mem hx.anc hy'.anc hyx hxy
    -- An item at the fork that leaves above `v` would be in the list, after the last one.
    have hlater : ∀ z, T.IsItem z → T.itemLow z = m → T.itemUp z < T.number v → False := by
      rintro z hz rfl hup
      have hzl : z ∈ l := (h.mem z).2 ⟨hz, hvm, .inl hup⟩
      have hbefore : T.Before (T.itemLow x) (T.itemLow z) := by
        refine ⟨?_, .inl (hd.anc.trans hdx)⟩
        intro heq
        rw [heq] at hdx
        exact hd.ne (hd.anc.antisymm hdx)
      rcases h.precedes_last hlast hzl with rfl | hprec
      · exact hbefore.1 rfl
      · exact hprec.asymm hz.low_mem hx.isItem.low_mem (.inl hbefore)
    have hcap : T.capNumber m < T.number v := by
      have htwice : T.ReachesTwice m (max (T.itemUp y) (T.itemUp x)) :=
        ⟨c, d, hc, hd, hne, (hy'.reaches hcy).mono (Nat.le_max_left _ _),
          (hx.reaches hdx).mono (Nat.le_max_right _ _)⟩
      exact (capNumber_le htwice).trans_lt (Nat.max_lt.2 ⟨hyup, hxup⟩)
    -- Such an item exists: an edge out of the fork, or the cap made there.
    by_cases hhere : T.ReachesHere m (T.capNumber m)
    · obtain ⟨i, hi, hlow, hup⟩ := hhere
      exact (hlater (.edge i) hi hlow (hup.trans_lt hcap)).elim
    · exact (hlater (.cap m) ⟨⟨_, c, d, hc, hd, hne, (hy'.reaches hcy).mono (Nat.le_max_left _ _),
        (hx.reaches hdx).mono (Nat.le_max_right _ _)⟩, hhere⟩ rfl hcap).elim
  · rw [heq]
    exact .refl hx.isItem.low_mem

/-- Going up, a list loses items as long as its last one stays. -/
theorem subset_of_anc (h : T.IsBracketList v l) (h' : T.IsBracketList w l') (hvw : T.Anc v w)
    (hlast : l.getLast? = some x) (hlast' : l'.getLast? = some x) : l ⊆ l' := by
  by_cases hne : v = w
  · subst hne
    rw [h.eq h']
    exact List.Subset.refl _
  · intro y hy
    have hx' := (h'.mem x).1 (List.mem_of_getLast? hlast')
    have hy' := (h.mem y).1 hy
    have hlow := hx'.anc.trans (h.anc_low_last hlast hy)
    refine (h'.mem y).2 ⟨hy'.isItem, hlow, .inl ?_⟩
    rcases hy'.above with hlt | rfl
    · exact hlt.trans_le hvw.le
    · exact absurd (hvw.antisymm hlow) hne

theorem length_le_of_anc (h : T.IsBracketList v l) (h' : T.IsBracketList w l')
    (hvw : T.Anc v w) (hlast : l.getLast? = some x) (hlast' : l'.getLast? = some x) :
    l.length ≤ l'.length :=
  (h.nodup.subperm (h.subset_of_anc h' hvw hlast hlast')).length_le

/-- Vertices whose lists have the same last item are above one another. -/
theorem chain (h : T.IsBracketList v l) (h' : T.IsBracketList w l')
    (hlast : l.getLast? = some x) (hlast' : l'.getLast? = some x) : T.Anc v w ∨ T.Anc w v :=
  ((h.mem x).1 (List.mem_of_getLast? hlast)).anc.chain ((h'.mem x).1 (List.mem_of_getLast? hlast')).anc

/-- The last item and the size determine the list. -/
theorem mem_iff_of_last (h : T.IsBracketList v l) (h' : T.IsBracketList w l')
    (hlast : l.getLast? = some x) (hlast' : l'.getLast? = some x)
    (hlength : l.length = l'.length) : y ∈ l ↔ y ∈ l' := by
  have hperm : ∀ {v w l l'}, T.IsBracketList v l → T.IsBracketList w l' → T.Anc v w →
      l.getLast? = some x → l'.getLast? = some x → l.length = l'.length → l.Perm l' := by
    intro v w l l' h h' hanc hlast hlast' hlength
    exact (h.nodup.subperm (h.subset_of_anc h' hanc hlast hlast')).perm_of_length_le hlength.ge
  rcases h.chain h' hlast hlast' with hanc | hanc
  · exact (hperm h h' hanc hlast hlast' hlength).mem_iff
  · exact (hperm h' h hanc hlast' hlast hlength.symm).mem_iff.symm

end IsBracketList

end

end DepthFirstTree
end Foundation
end Jstd
