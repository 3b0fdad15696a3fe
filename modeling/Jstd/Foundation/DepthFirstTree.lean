import Jstd.Foundation.Cut

/-!
# DepthFirstTree — the tree a depth-first search leaves in an undirected graph

A search numbers the vertices as it enters them and keeps, for every vertex, the number at which it
was left.  `v` descends from `u` when the number of `v` lies in the interval of `u`; intervals are
nested or disjoint, and no edge joins two vertices with disjoint intervals.

The vertices below a vertex are crossed by one tree edge and by the back edges that cover the
vertex, so cycle equivalence of the edges is equality of sets of covering back edges.
-/

namespace Jstd
namespace Foundation

/-- The numbers, parents and tree edges of a finished search. -/
structure DepthFirstTree {V I : Type} (G : Multigraph V I) where
  Mem : V → Prop
  root : V
  parent : V → V
  treeEdge : V → I
  number : V → Nat
  fin : V → Nat
  number_inj : ∀ {u v}, Mem u → Mem v → number u = number v → u = v
  number_lt_fin : ∀ {v}, Mem v → number v < fin v
  nested : ∀ {u v}, Mem u → Mem v → number u ≤ number v → number v < fin u → fin v ≤ fin u
  root_mem : Mem root
  root_covers : ∀ {v}, Mem v → number root ≤ number v ∧ number v < fin root
  parent_mem : ∀ {v}, Mem v → v ≠ root → Mem (parent v)
  parent_lt : ∀ {v}, Mem v → v ≠ root → number (parent v) < number v
  lt_fin_parent : ∀ {v}, Mem v → v ≠ root → number v < fin (parent v)
  le_parent : ∀ {u v}, Mem u → Mem v → v ≠ root → number u < number v → number v < fin u →
    number u ≤ number (parent v)
  treeEdge_isEdge : ∀ {v}, Mem v → v ≠ root → G.IsEdge (treeEdge v)
  treeEdge_joins : ∀ {v}, Mem v → v ≠ root →
    (G.src (treeEdge v) = parent v ∧ G.dst (treeEdge v) = v) ∨
      (G.src (treeEdge v) = v ∧ G.dst (treeEdge v) = parent v)
  src_mem : ∀ {i}, G.IsEdge i → Mem (G.src i)
  dst_mem : ∀ {i}, G.IsEdge i → Mem (G.dst i)
  /-- No edge joins vertices with disjoint intervals. -/
  comparable : ∀ {i}, G.IsEdge i →
    (number (G.src i) ≤ number (G.dst i) ∧ number (G.dst i) < fin (G.src i)) ∨
      (number (G.dst i) ≤ number (G.src i) ∧ number (G.src i) < fin (G.dst i))

namespace DepthFirstTree

variable {V I : Type} {G : Multigraph V I} (T : DepthFirstTree G)

/-! ## Ancestors -/

/-- `v` is `u` or was reached while the search was at `u`. -/
structure Anc (u v : V) : Prop where
  left_mem : T.Mem u
  right_mem : T.Mem v
  le : T.number u ≤ T.number v
  lt_fin : T.number v < T.fin u

variable {T} {u v w : V}

namespace Anc

theorem refl (hv : T.Mem v) : T.Anc v v :=
  ⟨hv, hv, Nat.le_refl _, T.number_lt_fin hv⟩

theorem fin_le (h : T.Anc u v) : T.fin v ≤ T.fin u :=
  T.nested h.left_mem h.right_mem h.le h.lt_fin

theorem trans (h : T.Anc u v) (h' : T.Anc v w) : T.Anc u w :=
  ⟨h.left_mem, h'.right_mem, h.le.trans h'.le, h'.lt_fin.trans_le h.fin_le⟩

theorem antisymm (h : T.Anc u v) (h' : T.Anc v u) : u = v :=
  T.number_inj h.left_mem h.right_mem (Nat.le_antisymm h.le h'.le)

theorem lt_of_ne (h : T.Anc u v) (hne : u ≠ v) : T.number u < T.number v :=
  Nat.lt_of_le_of_ne h.le fun heq => hne (T.number_inj h.left_mem h.right_mem heq)

/-- Of two ancestors of a vertex, the one with the smaller number is an ancestor of the other. -/
theorem of_le (hu : T.Anc u w) (hv : T.Anc v w) (hle : T.number u ≤ T.number v) : T.Anc u v :=
  ⟨hu.left_mem, hv.left_mem, hle, hv.le.trans_lt hu.lt_fin⟩

theorem chain (hu : T.Anc u w) (hv : T.Anc v w) : T.Anc u v ∨ T.Anc v u := by
  rcases Nat.le_total (T.number u) (T.number v) with hle | hle
  · exact .inl (hu.of_le hv hle)
  · exact .inr (hv.of_le hu hle)

end Anc

theorem anc_root (hv : T.Mem v) : T.Anc T.root v :=
  ⟨T.root_mem, hv, (T.root_covers hv).1, (T.root_covers hv).2⟩

theorem anc_parent (hv : T.Mem v) (hroot : v ≠ T.root) : T.Anc (T.parent v) v :=
  ⟨T.parent_mem hv hroot, hv, (T.parent_lt hv hroot).le, T.lt_fin_parent hv hroot⟩

theorem parent_ne (hv : T.Mem v) (hroot : v ≠ T.root) : T.parent v ≠ v := by
  intro heq
  have hlt := T.parent_lt hv hroot
  rw [heq] at hlt
  exact Nat.lt_irrefl _ hlt

/-- The proper ancestors of a vertex are the ancestors of its parent. -/
theorem Anc.to_parent (h : T.Anc u v) (hne : u ≠ v) (hroot : v ≠ T.root) : T.Anc u (T.parent v) :=
  h.of_le (anc_parent h.right_mem hroot)
    (T.le_parent h.left_mem h.right_mem hroot (h.lt_of_ne hne) h.lt_fin)

theorem anc_iff_parent (hv : T.Mem v) (hroot : v ≠ T.root) :
    T.Anc u v ↔ u = v ∨ T.Anc u (T.parent v) := by
  constructor
  · intro h
    by_cases hne : u = v
    · exact .inl hne
    · exact .inr (h.to_parent hne hroot)
  · rintro (rfl | h)
    · exact .refl hv
    · exact h.trans (anc_parent hv hroot)

theorem Anc.ne_root (h : T.Anc u v) (hne : u ≠ v) : v ≠ T.root := by
  rintro rfl
  exact hne (h.antisymm (anc_root h.left_mem))

/-- What holds of the root and passes from parents to children holds of every vertex. -/
theorem parent_induction {P : V → Prop} (hroot : P T.root)
    (hstep : ∀ v, T.Mem v → v ≠ T.root → P (T.parent v) → P v) (hv : T.Mem v) : P v := by
  induction hk : T.number v using Nat.strong_induction_on generalizing v with
  | _ k ih =>
      subst hk
      by_cases hne : v = T.root
      · rw [hne]
        exact hroot
      · exact hstep v hv hne (ih _ (T.parent_lt hv hne) (T.parent_mem hv hne) rfl)

variable (T) in
/-- `c` was reached from `v` along a tree edge. -/
structure IsChild (v c : V) : Prop where
  mem : T.Mem c
  ne_root : c ≠ T.root
  parent_eq : T.parent c = v

namespace IsChild

variable {c d : V}

theorem anc (h : T.IsChild v c) : T.Anc v c := by
  rw [← h.parent_eq]
  exact anc_parent h.mem h.ne_root

theorem ne (h : T.IsChild v c) : v ≠ c := by
  rw [← h.parent_eq]
  exact parent_ne h.mem h.ne_root

theorem lt (h : T.IsChild v c) : T.number v < T.number c :=
  h.anc.lt_of_ne h.ne

/-- A proper ancestor of a child is an ancestor of the vertex. -/
theorem anc_of_ne (h : T.IsChild v c) (hu : T.Anc u c) (hne : u ≠ c) : T.Anc u v := by
  rw [← h.parent_eq]
  exact hu.to_parent hne h.ne_root

/-- No vertex is below two children. -/
theorem unique (hc : T.IsChild v c) (hd : T.IsChild v d) (hcw : T.Anc c w) (hdw : T.Anc d w) :
    c = d := by
  by_contra hne
  rcases hcw.chain hdw with h | h
  · exact hc.ne ((hc.anc).antisymm (hd.anc_of_ne h hne))
  · exact hd.ne ((hd.anc).antisymm (hc.anc_of_ne h (Ne.symm hne)))

end IsChild

/-- A proper descendant is below a child. -/
theorem Anc.exists_child (h : T.Anc u w) (hne : u ≠ w) : ∃ c, T.IsChild u c ∧ T.Anc c w := by
  revert hne
  refine parent_induction (P := fun w => T.Anc u w → u ≠ w → ∃ c, T.IsChild u c ∧ T.Anc c w)
    ?_ ?_ h.right_mem h
  · intro h hne
    exact absurd rfl (h.ne_root hne)
  · intro v hv hroot ih h hne
    by_cases hparent : u = T.parent v
    · exact ⟨v, ⟨hv, hroot, hparent.symm⟩, .refl hv⟩
    · obtain ⟨c, hc, hcv⟩ := ih (h.to_parent hne hroot) hparent
      exact ⟨c, hc, hcv.trans (anc_parent hv hroot)⟩

/-- Vertices neither of which is above the other are below different children of some vertex. -/
theorem exists_fork (hu : T.Mem u) (hv : T.Anc w v) (hwu : T.Anc w u) (huv : ¬ T.Anc u v)
    (hvu : ¬ T.Anc v u) :
    ∃ m c d, T.Anc w m ∧ T.IsChild m c ∧ T.IsChild m d ∧ c ≠ d ∧ T.Anc c u ∧ T.Anc d v := by
  -- Up from `u`, until the parent is above `v` too.
  refine parent_induction
    (P := fun u => T.Anc w u → ¬ T.Anc u v → ¬ T.Anc v u →
      ∃ m c d, T.Anc w m ∧ T.IsChild m c ∧ T.IsChild m d ∧ c ≠ d ∧ T.Anc c u ∧ T.Anc d v)
    ?_ ?_ hu hwu huv hvu
  · intro _ huv _
    exact absurd (anc_root hv.right_mem) huv
  · intro u hu hroot ih hwu huv hvu
    have hparent := anc_parent hu hroot
    by_cases habove : T.Anc (T.parent u) v
    · -- The parent is the last common ancestor.
      have hne : T.parent u ≠ v := by
        rintro rfl
        exact hvu hparent
      obtain ⟨d, hd, hdv⟩ := habove.exists_child hne
      refine ⟨T.parent u, u, d, ?_, ⟨hu, hroot, rfl⟩, hd, ?_, .refl hu, hdv⟩
      · refine hwu.to_parent ?_ hroot
        rintro rfl
        exact huv hv
      · rintro rfl
        exact huv hdv
    · have hwparent : T.Anc w (T.parent u) := by
        refine hwu.to_parent ?_ hroot
        rintro rfl
        exact huv hv
      obtain ⟨m, c, d, hm, hc, hd, hne, hcu, hdv⟩ := ih hwparent habove
        fun h => hvu (h.trans hparent)
      exact ⟨m, c, d, hm, hc, hd, hne, hcu.trans hparent, hdv⟩

/-! ## Tree edges and back edges -/

variable (T) in
def IsTree (i : I) : Prop :=
  ∃ v, T.Mem v ∧ v ≠ T.root ∧ T.treeEdge v = i

variable (T) in
structure IsBack (i : I) : Prop where
  isEdge : G.IsEdge i
  not_tree : ¬ T.IsTree i

theorem treeEdge_inj (hu : T.Mem u) (hu' : u ≠ T.root) (hv : T.Mem v) (hv' : v ≠ T.root)
    (h : T.treeEdge u = T.treeEdge v) : u = v := by
  have hltu := T.parent_lt hu hu'
  have hltv := T.parent_lt hv hv'
  have hjoinsu := T.treeEdge_joins hu hu'
  rw [h] at hjoinsu
  rcases hjoinsu with ⟨hsrcu, hdstu⟩ | ⟨hsrcu, hdstu⟩
  · rcases T.treeEdge_joins hv hv' with ⟨-, hdstv⟩ | ⟨hsrcv, hdstv⟩
    · exact hdstu.symm.trans hdstv
    · rw [hsrcu.symm.trans hsrcv, hdstu.symm.trans hdstv] at hltu
      exact absurd hltu (Nat.lt_asymm hltv)
  · rcases T.treeEdge_joins hv hv' with ⟨hsrcv, hdstv⟩ | ⟨hsrcv, -⟩
    · rw [hdstu.symm.trans hdstv, hsrcu.symm.trans hsrcv] at hltu
      exact absurd hltu (Nat.lt_asymm hltv)
    · exact hsrcu.symm.trans hsrcv

theorem isTree_treeEdge (hv : T.Mem v) (hroot : v ≠ T.root) : T.IsTree (T.treeEdge v) :=
  ⟨v, hv, hroot, rfl⟩

variable (T) in
/-- One end of `i` is below `v`, the other is not. -/
def Covers (v : V) (i : I) : Prop :=
  G.Straddles {x | T.Anc v x} i

/-- A tree edge crosses a set when the set separates the vertex from its parent. -/
theorem straddles_treeEdge (hv : T.Mem v) (hroot : v ≠ T.root) (S : Set V) :
    G.Straddles S (T.treeEdge v) ↔ ¬ (T.parent v ∈ S ↔ v ∈ S) := by
  rw [Multigraph.Straddles]
  rcases T.treeEdge_joins hv hroot with ⟨hsrc, hdst⟩ | ⟨hsrc, hdst⟩
  · rw [hsrc, hdst]
  · rw [hsrc, hdst]
    exact not_congr Iff.comm

/-- The only tree edge that covers `v` is its own. -/
theorem covers_treeEdge (hu : T.Mem u) (hroot : u ≠ T.root) :
    T.Covers v (T.treeEdge u) ↔ v = u := by
  rw [Covers, straddles_treeEdge hu hroot]
  show ¬ (T.Anc v (T.parent u) ↔ T.Anc v u) ↔ _
  rw [anc_iff_parent hu hroot]
  constructor
  · intro h
    by_contra hne
    exact h ⟨.inr, fun h => h.resolve_left hne⟩
  · rintro rfl h
    exact parent_ne hu hroot ((anc_parent hu hroot).antisymm (h.2 (.inl rfl)))

/-- Sets that cross the same tree edges cross the same edges. -/
theorem straddles_congr (S S' : Set V)
    (h : ∀ v, T.Mem v → v ≠ T.root →
      (G.Straddles S (T.treeEdge v) ↔ G.Straddles S' (T.treeEdge v))) {i : I} (hi : G.IsEdge i) :
    G.Straddles S i ↔ G.Straddles S' i := by
  have hagree : ∀ v, T.Mem v → ((v ∈ S ↔ v ∈ S') ↔ (T.root ∈ S ↔ T.root ∈ S')) := by
    intro v hv
    refine parent_induction (P := fun v => (v ∈ S ↔ v ∈ S') ↔ (T.root ∈ S ↔ T.root ∈ S'))
      Iff.rfl ?_ hv
    intro v hv hroot ih
    have hv' := h v hv hroot
    rw [straddles_treeEdge hv hroot, straddles_treeEdge hv hroot] at hv'
    grind
  have hsrc := hagree _ (T.src_mem hi)
  have hdst := hagree _ (T.dst_mem hi)
  rw [Multigraph.Straddles, Multigraph.Straddles]
  grind

/-! ## Cycle equivalence -/

/-- Two tree edges are equivalent when the same back edges cover their vertices. -/
theorem treeEdge_treeEdge_iff (hcyclic : G.Cyclic) (hu : T.Mem u) (hu' : u ≠ T.root)
    (hv : T.Mem v) (hv' : v ≠ T.root) (huv : u ≠ v) :
    G.CycleEquivalent (T.treeEdge u) (T.treeEdge v) ↔
      ∀ i, T.IsBack i → (T.Covers u i ↔ T.Covers v i) := by
  have hne : T.treeEdge u ≠ T.treeEdge v := fun h => huv (treeEdge_inj hu hu' hv hv' h)
  -- The set of the vertices below one of the two and not below the other.
  have hxor : ∀ i, G.Straddles {x | ¬ (x ∈ {x | T.Anc u x} ↔ x ∈ {x | T.Anc v x})} i ↔
      ¬ (T.Covers u i ↔ T.Covers v i) := fun i => Multigraph.straddles_xor
  have htree : ∀ w, T.Mem w → w ≠ T.root →
      (¬ (T.Covers u (T.treeEdge w) ↔ T.Covers v (T.treeEdge w)) ↔ w = u ∨ w = v) := by
    intro w hw hw'
    rw [covers_treeEdge hw hw', covers_treeEdge hw hw']
    constructor
    · intro h
      by_contra hno
      rw [not_or] at hno
      exact h (iff_of_false (Ne.symm hno.1) (Ne.symm hno.2))
    · rintro (rfl | rfl) h
      · exact huv (h.1 rfl).symm
      · exact huv (h.2 rfl)
  rw [Multigraph.cycleEquivalent_iff_isCut hcyclic (T.treeEdge_isEdge hu hu')]
  constructor
  · rintro ⟨S, hS⟩ i hi
    have hcongr := straddles_congr (T := T) S
      {x | ¬ (x ∈ {x | T.Anc u x} ↔ x ∈ {x | T.Anc v x})} ?_ hi.isEdge
    · rw [hxor] at hcongr
      by_contra hcover
      rcases hS.only i hi.isEdge (hcongr.2 hcover) with rfl | rfl
      · exact hi.not_tree (isTree_treeEdge hu hu')
      · exact hi.not_tree (isTree_treeEdge hv hv')
    · intro w hw hw'
      rw [hxor, htree w hw hw']
      constructor
      · intro hcross
        rcases hS.only _ (T.treeEdge_isEdge hw hw') hcross with h | h
        · exact .inl (treeEdge_inj hw hw' hu hu' h)
        · exact .inr (treeEdge_inj hw hw' hv hv' h)
      · rintro (rfl | rfl)
        · exact hS.left
        · exact hS.right
  · intro hcover
    refine ⟨_, (hxor _).2 ((htree u hu hu').2 (.inl rfl)),
      (hxor _).2 ((htree v hv hv').2 (.inr rfl)), ?_⟩
    intro i hi hcross
    rw [hxor] at hcross
    by_cases hi' : T.IsTree i
    · obtain ⟨w, hw, hw', rfl⟩ := hi'
      rcases (htree w hw hw').1 hcross with rfl | rfl
      · exact .inl rfl
      · exact .inr rfl
    · exact absurd (hcover i ⟨hi, hi'⟩) hcross

/-- A tree edge and a back edge are equivalent when no other back edge covers the vertex. -/
theorem treeEdge_back_iff (hcyclic : G.Cyclic) {i : I} (hv : T.Mem v) (hroot : v ≠ T.root)
    (hi : T.IsBack i) :
    G.CycleEquivalent (T.treeEdge v) i ↔ ∀ j, T.IsBack j → (T.Covers v j ↔ j = i) := by
  rw [Multigraph.cycleEquivalent_iff_isCut hcyclic (T.treeEdge_isEdge hv hroot)]
  constructor
  · rintro ⟨S, hS⟩ j hj
    have hcongr := straddles_congr (T := T) S {x | T.Anc v x} ?_ hj.isEdge
    · rw [Covers, ← hcongr]
      constructor
      · intro hcross
        rcases hS.only j hj.isEdge hcross with rfl | rfl
        · exact absurd (isTree_treeEdge hv hroot) hj.not_tree
        · rfl
      · rintro rfl
        exact hS.right
    · intro w hw hw'
      show _ ↔ T.Covers v (T.treeEdge w)
      rw [covers_treeEdge hw hw']
      constructor
      · intro hcross
        rcases hS.only _ (T.treeEdge_isEdge hw hw') hcross with h | rfl
        · exact (treeEdge_inj hw hw' hv hroot h).symm
        · exact absurd (isTree_treeEdge hw hw') hi.not_tree
      · rintro rfl
        exact hS.left
  · intro hcover
    refine ⟨{x | T.Anc v x}, (covers_treeEdge hv hroot).2 rfl, (hcover i hi).2 rfl, ?_⟩
    intro j hj hcross
    by_cases hj' : T.IsTree j
    · obtain ⟨w, hw, hw', rfl⟩ := hj'
      exact .inl (congrArg T.treeEdge ((covers_treeEdge hw hw').1 hcross).symm)
    · exact .inr ((hcover j ⟨hj, hj'⟩).1 hcross)

/-- Two back edges are never equivalent: the tree leads around either of them. -/
theorem not_back_back (hcyclic : G.Cyclic) {i j : I} (hi : T.IsBack i) (hj : T.IsBack j) :
    ¬ G.CycleEquivalent i j := by
  rw [Multigraph.cycleEquivalent_iff_isCut hcyclic hi.isEdge]
  rintro ⟨S, hS⟩
  have hcongr := straddles_congr (T := T) S ∅ ?_ hi.isEdge
  · exact hcongr.1 hS.left (iff_of_false (Set.notMem_empty _) (Set.notMem_empty _))
  · intro w hw hw'
    refine iff_of_false ?_ fun h => h (iff_of_false (Set.notMem_empty _) (Set.notMem_empty _))
    intro hcross
    rcases hS.only _ (T.treeEdge_isEdge hw hw') hcross with rfl | rfl
    · exact hi.not_tree (isTree_treeEdge hw hw')
    · exact hj.not_tree (isTree_treeEdge hw hw')

/-- Where every edge lies on a cycle, a back edge covers every vertex but the root. -/
theorem exists_covers (hcyclic : G.Cyclic) (hv : T.Mem v) (hroot : v ≠ T.root) :
    ∃ i, T.IsBack i ∧ T.Covers v i := by
  by_contra hno
  -- The tree edge would be the only one to cross the set below its vertex.
  have honly : ∀ i, G.IsEdge i → G.Straddles {x | T.Anc v x} i → i = T.treeEdge v := by
    intro i hi hcross
    by_cases hi' : T.IsTree i
    · obtain ⟨w, hw, hw', rfl⟩ := hi'
      rw [(covers_treeEdge hw hw').1 hcross]
    · exact absurd ⟨i, ⟨hi, hi'⟩, hcross⟩ hno
  have hcut : G.IsCut {x | T.Anc v x} (T.treeEdge v) (T.treeEdge v) :=
    ⟨(covers_treeEdge hv hroot).2 rfl, (covers_treeEdge hv hroot).2 rfl,
      fun i hi hcross => .inl (honly i hi hcross)⟩
  have hwalk := hcyclic _ (T.treeEdge_isEdge hv hroot)
  exact hcut.not_avoiding ((Multigraph.avoiding_src (Multigraph.avoiding_dst hwalk)).mono
    fun i hi => hi.2)

end DepthFirstTree

end Foundation
end Jstd
