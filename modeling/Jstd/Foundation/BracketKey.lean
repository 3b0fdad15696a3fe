import Jstd.Foundation.BracketList

/-!
# BracketKey — the names and the classes

The key of a tree edge is the last bracket of its vertex and the number of brackets; the key of a
back edge is itself and one.  Keys agree exactly with cycle equivalence when no spurious cap sets a
tree edge apart from another edge of its class.

The bracket list of a vertex is that of its children, less what ends at the vertex, followed by what
begins there.
-/

namespace Jstd
namespace Foundation
namespace DepthFirstTree

variable {V I : Type} {G : Multigraph V I} [LinearOrder I] {T : DepthFirstTree G} {u v w : V}
  {i j : I} {x y : Item V I} {l l' : List (Item V I)}

/-! ## From the children to the vertex -/

/-- Whatever is listed of one child precedes what is listed of a later one. -/
theorem precedes_of_children {c d : V} (hc : T.IsChild v c) (hd : T.IsChild v d)
    (hlt : T.number c < T.number d) (hx : T.Anc c (T.itemLow x)) (hy : T.Anc d (T.itemLow y)) :
    T.Precedes x y := by
  have hfin : T.fin c ≤ T.number d := by
    by_contra hlt'
    have hcd : T.Anc c d := ⟨hc.mem, hd.mem, hlt.le, Nat.lt_of_not_le hlt'⟩
    rw [hc.unique hd hcd (.refl hd.mem)] at hlt
    exact Nat.lt_irrefl _ hlt
  have hle : T.fin (T.itemLow x) ≤ T.number (T.itemLow y) :=
    calc T.fin (T.itemLow x) ≤ T.fin c := hx.fin_le
      _ ≤ T.number d := hfin
      _ ≤ T.number (T.itemLow y) := hy.le
  refine .inl ⟨?_, .inr hle⟩
  intro heq
  rw [heq] at hle
  exact Nat.not_le_of_lt (T.number_lt_fin hy.right_mem) hle

theorem precedes_of_low {c : V} (hc : T.IsChild v c) (hx : T.Anc c (T.itemLow x))
    (hy : T.itemLow y = v) : T.Precedes x y := by
  rw [Precedes, hy]
  refine .inl ⟨?_, .inl (hc.anc.trans hx)⟩
  intro heq
  rw [heq] at hx
  exact hc.ne (hc.anc.antisymm hx)

/-- The lists of the children, with what ends at the vertex left out; then the back edges that
begin at the vertex; then its cap. -/
theorem isBracketList_of_children {children : List V} (hchildren : ∀ c, c ∈ children ↔ T.IsChild v c)
    (hsorted : children.Pairwise fun c d => T.number c < T.number d)
    {lists : V → List (Item V I)} (hlists : ∀ c ∈ children, T.IsBracketList c (lists c))
    {keep : Item V I → Bool}
    (hkeep : ∀ c ∈ children, ∀ x ∈ lists c, (keep x = true ↔ T.itemUp x < T.number v))
    {begins : List I}
    (hbegins : ∀ i, i ∈ begins ↔ T.IsBack i ∧ T.low i = v ∧ T.number (T.up i) < T.number v)
    (hbegins_sorted : begins.Pairwise fun i j => i < j) {caps : List (Item V I)}
    (hcaps : (T.HasCap v ∧ caps = [.cap v]) ∨ (¬ T.HasCap v ∧ caps = [])) (hv : T.Mem v) :
    T.IsBracketList v
      ((children.flatMap lists).filter keep ++ begins.map (fun i => .edge i) ++ caps) := by
  have hmem_caps : ∀ x, x ∈ caps ↔ T.HasCap v ∧ x = .cap v := by
    intro x
    rcases hcaps with ⟨hcap, rfl⟩ | ⟨hcap, rfl⟩
    · simp [hcap]
    · simp [hcap]
  have hmem_below : ∀ x, x ∈ (children.flatMap lists).filter keep ↔
      ∃ c, T.IsChild v c ∧ T.Listed c x ∧ T.itemUp x < T.number v := by
    intro x
    rw [List.mem_filter, List.mem_flatMap]
    constructor
    · rintro ⟨⟨c, hc, hx⟩, hx'⟩
      exact ⟨c, (hchildren c).1 hc, ((hlists c hc).mem x).1 hx, (hkeep c hc x hx).1 hx'⟩
    · rintro ⟨c, hc, hx, hup⟩
      have hc' := (hchildren c).2 hc
      have hx' := ((hlists c hc').mem x).2 hx
      exact ⟨⟨c, hc', hx'⟩, (hkeep c hc' x hx').2 hup⟩
  constructor
  · intro x
    rw [List.mem_append, List.mem_append, List.mem_map, hmem_below, hmem_caps]
    constructor
    · rintro ((⟨c, hc, hx, hup⟩ | ⟨i, hi, rfl⟩) | ⟨hcap, rfl⟩)
      · exact ⟨hx.isItem, hc.anc.trans hx.anc, .inl hup⟩
      · obtain ⟨hback, rfl, hup⟩ := (hbegins i).1 hi
        exact ⟨hback, .refl hv, .inl hup⟩
      · exact ⟨hcap, .refl hv, .inr rfl⟩
    · intro hx
      -- An item either starts here or comes up through the one child below which it starts.
      by_cases hlow : v = T.itemLow x
      · cases x with
        | edge i =>
            refine .inl (.inr ⟨i, (hbegins i).2 ⟨hx.isItem, hlow.symm, ?_⟩, rfl⟩)
            rcases hx.above with hup | heq
            · exact hup
            · cases heq
        | cap u =>
            obtain rfl : v = u := hlow
            exact .inr ⟨hx.isItem, rfl⟩
      · have hup : T.itemUp x < T.number v := by
          rcases hx.above with hup | rfl
          · exact hup
          · exact absurd rfl hlow
        obtain ⟨c, hc, hanc⟩ := hx.anc.exists_child hlow
        exact .inl (.inl ⟨c, hc, ⟨hx.isItem, hanc, .inl (hup.trans hc.lt)⟩, hup⟩)
  · -- The order: first the children in turn, then what begins here, the cap last.
    rw [List.pairwise_append, List.pairwise_append]
    refine ⟨⟨?_, ?_, ?_⟩, ?_, ?_⟩
    · refine List.Pairwise.filter _ (List.pairwise_flatMap.2 ⟨?_, ?_⟩)
      · exact fun c hc => (hlists c hc).ordered
      · refine hsorted.imp_of_mem ?_
        intro c d hc hd hlt x hx y hy
        exact precedes_of_children ((hchildren c).1 hc) ((hchildren d).1 hd) hlt
          (((hlists c hc).mem x).1 hx).anc (((hlists d hd).mem y).1 hy).anc
    · refine List.pairwise_map.2 (hbegins_sorted.imp_of_mem ?_)
      intro i j hi hj hlt
      exact .inr ⟨((hbegins i).1 hi).2.1.trans ((hbegins j).1 hj).2.1.symm, hlt⟩
    · intro x hx y hy
      obtain ⟨c, hc, hx, -⟩ := (hmem_below x).1 hx
      obtain ⟨j, hj, rfl⟩ := List.mem_map.1 hy
      exact precedes_of_low hc hx.anc ((hbegins j).1 hj).2.1
    · rcases hcaps with ⟨-, rfl⟩ | ⟨-, rfl⟩
      · exact List.pairwise_singleton _ _
      · exact List.Pairwise.nil
    · intro x hx y hy
      obtain ⟨-, rfl⟩ := (hmem_caps y).1 hy
      rcases List.mem_append.1 hx with hx | hx
      · obtain ⟨c, hc, hx, -⟩ := (hmem_below x).1 hx
        exact precedes_of_low hc hx.anc rfl
      · obtain ⟨i, hi, rfl⟩ := List.mem_map.1 hx
        exact .inr ⟨((hbegins i).1 hi).2.1, trivial⟩

/-! ## What the last bracket and the size say -/

/-- The cap of a vertex is the last of its list. -/
theorem IsBracketList.last_of_hasCap (h : T.IsBracketList v l) (hv : T.Mem v) (hcap : T.HasCap v) :
    l.getLast? = some (.cap v) := by
  have hmem : Item.cap v ∈ l := (h.mem _).2 ⟨hcap, .refl hv, .inr rfl⟩
  obtain ⟨x, hlast⟩ : ∃ x, l.getLast? = some x := by
    cases hlast : l.getLast? with
    | none =>
        rw [List.getLast?_eq_none_iff.1 hlast] at hmem
        cases hmem
    | some x => exact ⟨x, rfl⟩
  have hx := (h.mem x).1 (List.mem_of_getLast? hlast)
  rcases h.precedes_last hlast hmem with rfl | ⟨hne, hanc | hfin⟩ | ⟨-, hsooner⟩
  · exact hlast
  · exact absurd (hx.anc.antisymm hanc) hne
  · exact absurd hfin (Nat.not_le_of_lt hx.anc.lt_fin)
  · exact hsooner.elim

/-- No other list holds a spurious cap. -/
theorem Spurious.eq_of_mem (hs : T.Spurious v) (h : T.IsBracketList w l) (hmem : Item.cap v ∈ l) :
    w = v := by
  have hlisted := (h.mem _).1 hmem
  rcases hlisted.above with hlt | heq
  · have hlt' : T.number v < T.number w := hs.capNumber_eq ▸ hlt
    exact absurd hlisted.anc.le (Nat.not_le_of_lt hlt')
  · exact (Item.cap.inj heq).symm

omit [LinearOrder I] in
/-- Where the same back edges cover two vertices, the same caps do. -/
theorem listed_of_covers (hw : T.Mem w) (hcover : ∀ i, T.IsBack i → T.Covers v i → T.Covers w i)
    (hx : T.Listed v x) (hup : T.itemUp x < T.number v) : T.Listed w x := by
  -- For a back edge that is assumed; a cap goes where the two edges are that ask for it.
  cases x with
  | edge i => exact listed_edge.2 ⟨hx.isItem, hcover i hx.isItem (listed_edge.1 hx).2⟩
  | cap m =>
      have hcap : T.HasCap m := hx.isItem
      have hvm : T.Anc v m := hx.anc
      obtain ⟨c, d, i, j, hc, hd, hne, ⟨hi, hvi⟩, ⟨hj, hvj⟩, hcl, hdl⟩ :=
        hcap.exists_covers hvm hup
      have hwi := ((covers_iff hi.isEdge).1 (hcover i hi hvi)).1
      have hwj := ((covers_iff hj.isEdge).1 (hcover j hj hvj)).1
      have hwm : T.Anc w m := by
        rcases hwi.chain (hc.anc.trans hcl) with h | h
        · exact h
        · by_cases heq : m = w
          · rw [heq]
            exact .refl hw
          · -- Below a child of `m` there cannot be brackets of two.
            obtain ⟨e, he, hew⟩ := h.exists_child heq
            have hec := he.unique hc (hew.trans hwi) hcl
            have hed := he.unique hd (hew.trans hwj) hdl
            exact absurd (hec.symm.trans hed) hne
      refine ⟨hcap, hwm, .inl ?_⟩
      obtain ⟨b, hb, hlow, hbup⟩ := hcap.exists_back
      have hvb : T.Covers v b := by
        refine (covers_iff hb.isEdge).2 ⟨hvm.trans hlow, ?_⟩
        rw [hbup]
        exact hup
      have hwb := ((covers_iff hb.isEdge).1 (hcover b hb hvb)).2
      rw [hbup] at hwb
      exact hwb

section

variable (hcyclic : G.Cyclic)
include hcyclic

theorem IsBracketList.exists_edge (h : T.IsBracketList v l) (hv : T.Mem v) (hroot : v ≠ T.root) :
    ∃ i, Item.edge i ∈ l := by
  obtain ⟨i, hi, hcover⟩ := exists_covers hcyclic hv hroot
  exact ⟨i, (h.mem _).2 (listed_edge.2 ⟨hi, hcover⟩)⟩

theorem IsBracketList.exists_last (h : T.IsBracketList v l) (hv : T.Mem v) (hroot : v ≠ T.root) :
    ∃ x, l.getLast? = some x := by
  obtain ⟨i, hi⟩ := h.exists_edge hcyclic hv hroot
  cases hlast : l.getLast? with
  | none =>
      rw [List.getLast?_eq_none_iff.1 hlast] at hi
      cases hi
  | some x => exact ⟨x, rfl⟩

/-- A spurious cap is listed beside the brackets of its vertex. -/
theorem Spurious.two_le_length (hs : T.Spurious v) (h : T.IsBracketList v l) : 2 ≤ l.length := by
  obtain ⟨i, hi⟩ := h.exists_edge hcyclic hs.mem hs.ne_root
  obtain ⟨l', rfl⟩ := List.getLast?_eq_some_iff.1 (h.last_of_hasCap hs.mem hs.hasCap)
  rcases List.mem_append.1 hi with hi | hi
  · have := List.length_pos_of_mem hi
    rw [List.length_append, List.length_singleton]
    omega
  · cases List.mem_singleton.1 hi

theorem IsBracketList.itemUp_lt (h : T.IsBracketList v l) (hroot : v ≠ T.root)
    (hs : ¬ T.Spurious v) (hx : x ∈ l) : T.itemUp x < T.number v := by
  have hlisted := (h.mem x).1 hx
  rcases hlisted.above with hlt | rfl
  · exact hlt
  · have hcap : T.HasCap v := hlisted.isItem
    refine Nat.lt_of_le_of_ne (hcap.capNumber_le_number hcyclic) fun heq => ?_
    exact hs ⟨hlisted.anc.left_mem, hroot, hcap, heq⟩

/-- Without spurious caps, the last item and the size agree exactly when the brackets do. -/
theorem IsBracketList.last_length_iff (h : T.IsBracketList u l) (h' : T.IsBracketList v l')
    (hu : T.Mem u) (hu' : u ≠ T.root) (hus : ¬ T.Spurious u) (hv : T.Mem v) (hv' : v ≠ T.root)
    (hvs : ¬ T.Spurious v) :
    (l.getLast? = l'.getLast? ∧ l.length = l'.length) ↔
      ∀ i, T.IsBack i → (T.Covers u i ↔ T.Covers v i) := by
  constructor
  -- The last items and the sizes decide which items the lists share.
  · rintro ⟨hlast, hlength⟩ i hi
    obtain ⟨x, hx⟩ := h.exists_last hcyclic hu hu'
    have hmem := h.mem_iff_of_last (y := .edge i) h' hx (hlast ▸ hx) hlength
    rw [h.mem, h'.mem, listed_edge, listed_edge] at hmem
    constructor
    · exact fun hcover => (hmem.1 ⟨hi, hcover⟩).2
    · exact fun hcover => (hmem.2 ⟨hi, hcover⟩).2
  -- Equal covers list equal items, and the order of a list is determined.
  · intro hcover
    have heq : l = l' := by
      have hlisted : ∀ x, T.Listed u x ↔ T.Listed v x := by
        intro x
        constructor
        · intro hx
          exact listed_of_covers hv (fun i hi => (hcover i hi).1) hx
            (h.itemUp_lt hcyclic hu' hus ((h.mem x).2 hx))
        · intro hx
          exact listed_of_covers hu (fun i hi => (hcover i hi).2) hx
            (h'.itemUp_lt hcyclic hv' hvs ((h'.mem x).2 hx))
      exact h.eq ⟨fun x => ((h'.mem x).trans (hlisted x).symm), h'.ordered⟩
    rw [heq]
    exact ⟨rfl, rfl⟩

/-- Without a spurious cap, a list holds one back edge alone when nothing else covers the vertex. -/
theorem IsBracketList.eq_singleton_iff (h : T.IsBracketList v l) (hroot : v ≠ T.root)
    (hs : ¬ T.Spurious v) (hi : T.IsBack i) :
    (l.getLast? = some (.edge i) ∧ l.length = 1) ↔ ∀ j, T.IsBack j → (T.Covers v j ↔ j = i) := by
  constructor
  · rintro ⟨hlast, hlength⟩ j hj
    obtain ⟨x, rfl⟩ := List.length_eq_one_iff.1 hlength
    obtain rfl : x = .edge i := Option.some.inj hlast
    have hmem := (h.mem (.edge j)).symm
    rw [listed_edge, List.mem_singleton, Item.edge.injEq] at hmem
    exact ⟨fun hcover => hmem.1 ⟨hj, hcover⟩, fun heq => (hmem.2 heq).2⟩
  · intro hcover
    have hmem : Item.edge i ∈ l := (h.mem _).2 (listed_edge.2 ⟨hi, (hcover i hi).2 rfl⟩)
    -- A cap would take brackets in two children, and there is one bracket.
    have honly : ∀ x ∈ l, x = .edge i := by
      intro x hx
      have hlisted := (h.mem x).1 hx
      cases x with
      | edge j => rw [(hcover j hlisted.isItem).1 (listed_edge.1 hlisted).2]
      | cap m =>
          have hcap : T.HasCap m := hlisted.isItem
          obtain ⟨c, d, b, b', hc, hd, hne, ⟨hb, hvb⟩, ⟨hb', hvb'⟩, hcl, hdl⟩ :=
            hcap.exists_covers hlisted.anc (h.itemUp_lt hcyclic hroot hs hx)
          rw [(hcover b hb).1 hvb] at hcl
          rw [(hcover b' hb').1 hvb'] at hdl
          exact absurd (hc.unique hd hcl hdl) hne
    have hl : l = [.edge i] := by
      refine (List.perm_singleton.1 ?_)
      rw [List.perm_ext_iff_of_nodup h.nodup (List.nodup_singleton _)]
      intro x
      rw [List.mem_singleton]
      exact ⟨honly x, fun heq => heq ▸ hmem⟩
    rw [hl]
    exact ⟨rfl, rfl⟩

end

/-! ## Keys -/

variable (T) in
noncomputable def bracketList (v : V) : List (Item V I) :=
  Classical.epsilon (T.IsBracketList v)

theorem IsBracketList.bracketList_eq (h : T.IsBracketList v l) : T.bracketList v = l :=
  (Classical.epsilon_spec (p := T.IsBracketList v) ⟨l, h⟩).eq h

variable (T) in
/-- What the tree edge into `v` is named after. -/
noncomputable def vertexKey (v : V) : Option (Item V I) × Nat :=
  ((T.bracketList v).getLast?, (T.bracketList v).length)

variable (T) in
open Classical in
noncomputable def key (i : I) : Option (Item V I) × Nat :=
  if h : T.IsTree i then T.vertexKey h.choose else (some (.edge i), 1)

theorem key_treeEdge (hv : T.Mem v) (hroot : v ≠ T.root) :
    T.key (T.treeEdge v) = T.vertexKey v := by
  have h : T.IsTree (T.treeEdge v) := isTree_treeEdge hv hroot
  obtain ⟨hmem, hne, heq⟩ := h.choose_spec
  rw [key, dif_pos h, treeEdge_inj hmem hne hv hroot heq]

theorem key_back (hi : T.IsBack i) : T.key i = (some (.edge i), 1) := by
  rw [key, dif_neg hi.not_tree]

/-- Of two vertices named after the same item, the one that is met first has fewer brackets. -/
theorem vertexKey_snd_le (hv : T.IsBracketList v (T.bracketList v))
    (hw : T.IsBracketList w (T.bracketList w)) (hle : T.number v ≤ T.number w)
    (hvx : (T.vertexKey v).1 = some x) (hwx : (T.vertexKey w).1 = some x) :
    (T.vertexKey v).2 ≤ (T.vertexKey w).2 := by
  have hanc : T.Anc v w := by
    have hvlow := ((hv.mem x).1 (List.mem_of_getLast? hvx)).anc
    have hwlow := ((hw.mem x).1 (List.mem_of_getLast? hwx)).anc
    exact hvlow.of_le hwlow hle
  exact hv.length_le_of_anc hw hanc hvx hwx

variable (T) in
/-- Every vertex but the root has a bracket list. -/
def HasBracketLists : Prop :=
  ∀ v, T.Mem v → v ≠ T.root → T.IsBracketList v (T.bracketList v)

section

variable (hcyclic : G.Cyclic) (hlists : T.HasBracketLists)
include hcyclic hlists

/-- A spurious cap gives its tree edge a name of its own. -/
theorem Spurious.key_ne (hs : T.Spurious v) (hj : G.IsEdge j) (hne : j ≠ T.treeEdge v) :
    T.key (T.treeEdge v) ≠ T.key j := by
  have hlist := hlists v hs.mem hs.ne_root
  have hlast := hlist.last_of_hasCap hs.mem hs.hasCap
  have hlength := hs.two_le_length hcyclic hlist
  rw [key_treeEdge hs.mem hs.ne_root, vertexKey, hlast]
  intro heq
  by_cases hj' : T.IsTree j
  · obtain ⟨w, hw, hw', rfl⟩ := hj'
    rw [key_treeEdge hw hw', vertexKey, Prod.mk.injEq] at heq
    have hmem := List.mem_of_getLast? heq.1.symm
    exact hne (congrArg T.treeEdge (hs.eq_of_mem (hlists w hw hw') hmem))
  · rw [key_back ⟨hj, hj'⟩, Prod.mk.injEq] at heq
    omega

theorem key_treeEdge_eq_iff (hu : T.Mem u) (hu' : u ≠ T.root) (hus : ¬ T.Spurious u)
    (hv : T.Mem v) (hv' : v ≠ T.root) (hvs : ¬ T.Spurious v) (huv : u ≠ v) :
    T.key (T.treeEdge u) = T.key (T.treeEdge v) ↔
      G.CycleEquivalent (T.treeEdge u) (T.treeEdge v) := by
  rw [treeEdge_treeEdge_iff hcyclic hu hu' hv hv' huv, key_treeEdge hu hu', key_treeEdge hv hv',
    vertexKey, vertexKey, Prod.mk.injEq]
  exact (hlists u hu hu').last_length_iff hcyclic (hlists v hv hv') hu hu' hus hv hv' hvs

theorem key_back_eq_iff (hv : T.Mem v) (hroot : v ≠ T.root) (hs : ¬ T.Spurious v)
    (hi : T.IsBack i) :
    T.key (T.treeEdge v) = T.key i ↔ G.CycleEquivalent (T.treeEdge v) i := by
  rw [treeEdge_back_iff hcyclic hv hroot hi, key_treeEdge hv hroot, key_back hi, vertexKey,
    Prod.mk.injEq]
  exact (hlists v hv hroot).eq_singleton_iff hcyclic hroot hs hi

/-- Two edges of which neither has a spurious cap below it have one name when they are cycle
equivalent. -/
theorem key_eq_iff (hi : G.IsEdge i) (hj : G.IsEdge j) (hij : i ≠ j)
    (his : ∀ v, T.Spurious v → i ≠ T.treeEdge v) (hjs : ∀ v, T.Spurious v → j ≠ T.treeEdge v) :
    T.key i = T.key j ↔ G.CycleEquivalent i j := by
  have hcomm : G.CycleEquivalent i j ↔ G.CycleEquivalent j i :=
    ⟨fun h => h.symm, fun h => h.symm⟩
  by_cases hi' : T.IsTree i
  · obtain ⟨u, hu, hu', rfl⟩ := hi'
    by_cases hj' : T.IsTree j
    · obtain ⟨v, hv, hv', rfl⟩ := hj'
      exact key_treeEdge_eq_iff hcyclic hlists hu hu' (fun h => his u h rfl) hv hv'
        (fun h => hjs v h rfl) fun h => hij (congrArg T.treeEdge h)
    · exact key_back_eq_iff hcyclic hlists hu hu' (fun h => his u h rfl) ⟨hj, hj'⟩
  · by_cases hj' : T.IsTree j
    · obtain ⟨v, hv, hv', rfl⟩ := hj'
      rw [eq_comm, hcomm]
      exact key_back_eq_iff hcyclic hlists hv hv' (fun h => hjs v h rfl) ⟨hi, hi'⟩
    · refine iff_of_false ?_ (not_back_back (T := T) hcyclic ⟨hi, hi'⟩ ⟨hj, hj'⟩)
      rw [key_back ⟨hi, hi'⟩, key_back ⟨hj, hj'⟩]
      simp [hij]

/-- The names are the cycle classes exactly when every tree edge with a spurious cap below it is
alone in its class. -/
theorem key_exact_iff :
    (∀ i j, G.IsEdge i → G.IsEdge j → i ≠ j → (T.key i = T.key j ↔ G.CycleEquivalent i j)) ↔
      ∀ v, T.Spurious v → ∀ j, G.IsEdge j → j ≠ T.treeEdge v →
        ¬ G.CycleEquivalent (T.treeEdge v) j := by
  constructor
  · intro hexact v hs j hj hne hequiv
    refine hs.key_ne hcyclic hlists hj hne ?_
    exact (hexact _ j (T.treeEdge_isEdge hs.mem hs.ne_root) hj (Ne.symm hne)).2 hequiv
  · intro halone i j hi hj hij
    by_cases his : ∃ v, T.Spurious v ∧ i = T.treeEdge v
    · obtain ⟨v, hs, rfl⟩ := his
      exact iff_of_false (hs.key_ne hcyclic hlists hj (Ne.symm hij))
        (halone v hs j hj (Ne.symm hij))
    · by_cases hjs : ∃ v, T.Spurious v ∧ j = T.treeEdge v
      · obtain ⟨v, hs, rfl⟩ := hjs
        refine iff_of_false ?_ fun h => halone v hs i hi hij h.symm
        exact fun h => hs.key_ne hcyclic hlists hi hij h.symm
      · exact key_eq_iff hcyclic hlists hi hj hij (fun v hs heq => his ⟨v, hs, heq⟩)
          fun v hs heq => hjs ⟨v, hs, heq⟩

end

end DepthFirstTree
end Foundation
end Jstd
