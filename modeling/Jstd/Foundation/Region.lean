import Mathlib.Data.Set.Function
import Mathlib.Data.Set.Lattice
import Mathlib.Order.CompletePartialOrder
import Jstd.Foundation.Multigraph

/-!
# Region — single-entry single-exit regions of a flow graph

A flow graph has one root and one exit, and an edge from the exit back to the root.  Two notions of
a region with the entry edge `a` and the exit edge `b` are compared:

* `IsSese`: a set of vertices that `a` alone enters and `b` alone leaves;
* `IsCandidate`: `a` dominates `b`, `b` post-dominates `a`, and no cycle contains exactly one of
  them; the vertices are those `region a b` between the two.

Without assumptions a candidate has one entry (`IsCandidate.only_entry`), and one exit exactly when
what `a` leads to comes back to `b` (`IsCandidate.only_exit_iff`).  Where every vertex reaches the
exit both notions agree, and regions that cross are made of smaller ones (`IsSese.split_of_cross`).
-/

namespace Jstd
namespace Foundation

/-- Two sets overlap, and neither contains the other. -/
def Crosses {V : Type} (N M : Set V) : Prop :=
  (N ∩ M).Nonempty ∧ (N \ M).Nonempty ∧ (M \ N).Nonempty

/-- Sets that overlap without crossing are nested. -/
theorem nested_of_common {V : Type} {N M : Set V} (hcommon : (N ∩ M).Nonempty)
    (h : ¬ Crosses N M) : N ⊆ M ∨ M ⊆ N := by
  by_contra hnot
  rw [not_or, Set.not_subset, Set.not_subset] at hnot
  exact h ⟨hcommon, hnot.1, hnot.2⟩

theorem crosses_image_iff {V W : Type} {f : V → W} {N M : Set V} (hf : Set.InjOn f (N ∪ M)) :
    Crosses (f '' N) (f '' M) ↔ Crosses N M := by
  have hdiff : ∀ {A B : Set V}, Set.InjOn f (A ∪ B) →
      ((f '' A \ f '' B).Nonempty ↔ (A \ B).Nonempty) := by
    intro A B hf
    constructor
    · rintro ⟨_, ⟨x, hx, rfl⟩, hnot⟩
      exact ⟨x, hx, fun hB => hnot ⟨x, hB, rfl⟩⟩
    · rintro ⟨x, hx, hnot⟩
      refine ⟨f x, ⟨x, hx, rfl⟩, ?_⟩
      rintro ⟨y, hy, heq⟩
      exact hnot (hf (.inr hy) (.inl hx) heq ▸ hy)
  rw [Crosses, Crosses, ← hf.image_inter Set.subset_union_left Set.subset_union_right,
    Set.image_nonempty, hdiff hf, hdiff (Set.union_comm N M ▸ hf)]

namespace Multigraph

variable {V I : Type} (G : Multigraph V I)

/-- Every edge is reachable from the root, and the exit leads back to it. -/
structure Flow (root exit : V) : Prop where
  reached : ∀ i, G.IsEdge i → G.Connected root (G.src i)
  back : ∃ i, G.IsEdge i ∧ G.src i = exit ∧ G.dst i = root

/-- Every reachable vertex reaches the exit. -/
def Terminating (root exit : V) : Prop :=
  ∀ v, G.Connected root v → G.Connected v exit

/-- An edge between vertices other than the exit. -/
structure Inner (exit : V) (i : I) : Prop where
  isEdge : G.IsEdge i
  src_ne : G.src i ≠ exit
  dst_ne : G.dst i ≠ exit

/-- What lies between `a` and `b`. -/
def region (a b : I) : Set V :=
  {v | G.Avoiding b (G.dst a) v ∧ G.Avoiding a v (G.src b)}

/-- The conditions on walks that make `a` and `b` the boundary of a region. -/
structure IsCandidate (root exit : V) (a b : I) : Prop where
  entry_inner : G.Inner exit a
  exit_inner : G.Inner exit b
  ne : a ≠ b
  dominates : ¬ G.Avoiding a root (G.src b)
  postdominates : ¬ G.Avoiding b (G.dst a) exit
  equivalent : G.CycleEquivalent a b
  nonempty : (G.region a b).Nonempty

/-- The conditions on the border of a set. -/
structure IsSese (root exit : V) (a b : I) (N : Set V) : Prop where
  entry_inner : G.Inner exit a
  exit_inner : G.Inner exit b
  ne : a ≠ b
  reached : ∀ v ∈ N, G.Connected root v
  exit_notMem : exit ∉ N
  entry_src : G.src a ∉ N
  entry_dst : G.dst a ∈ N
  exit_src : G.src b ∈ N
  exit_dst : G.dst b ∉ N
  only_entry : ∀ i, G.IsEdge i → G.src i ∉ N → G.dst i ∈ N → i = a
  only_exit : ∀ i, G.IsEdge i → G.src i ∈ N → G.dst i ∉ N → i = b

variable {G} {root exit : V} {a b c d : I} {N M : Set V}

/-! ## Candidates -/

namespace IsCandidate

theorem root_notMem (h : G.IsCandidate root exit a b) : root ∉ G.region a b :=
  fun hmem => h.dominates hmem.2

theorem exit_notMem (h : G.IsCandidate root exit a b) : exit ∉ G.region a b :=
  fun hmem => h.postdominates hmem.1

theorem entry_src (h : G.IsCandidate root exit a b) : G.src a ∉ G.region a b :=
  fun hmem => h.equivalent.left hmem.1

theorem exit_dst (h : G.IsCandidate root exit a b) : G.dst b ∉ G.region a b :=
  fun hmem => h.equivalent.right hmem.2

theorem entry_dst (h : G.IsCandidate root exit a b) : G.dst a ∈ G.region a b := by
  obtain ⟨w, hfrom, hto⟩ := h.nonempty
  exact ⟨.refl _, ((avoiding_dst hfrom).mono fun _ hi => hi.2).trans hto⟩

theorem exit_src (h : G.IsCandidate root exit a b) : G.src b ∈ G.region a b := by
  obtain ⟨w, hfrom, hto⟩ := h.nonempty
  exact ⟨hfrom.trans ((avoiding_src hto).mono fun _ hi => hi.2), .refl _⟩

/-- Only `a` enters a candidate's region. -/
theorem only_entry (hG : G.Flow root exit) (h : G.IsCandidate root exit a b) {i : I}
    (hi : G.IsEdge i) (hsrc : G.src i ∉ G.region a b) (hdst : G.dst i ∈ G.region a b) :
    i = a := by
  by_contra hne
  have hback : G.Avoiding a (G.src i) (G.src b) := (Walk.edge hi hne).trans hdst.2
  rcases (hG.reached i hi).after a with hroot | ⟨-, -, hfrom⟩
  · exact h.dominates ((hroot.mono fun _ hj => hj.2).trans hback)
  · rcases hfrom.after b with hforward | ⟨-, -, hlast⟩
    · exact hsrc ⟨hforward.mono fun _ hj => hj.2, hback⟩
    · exact h.equivalent.right ((hlast.mono fun _ hj => hj.1.2).trans hback)

/-- Only `b` leaves it, exactly when everything `a` leads to without `b` can come back to `b`. -/
theorem only_exit_iff (h : G.IsCandidate root exit a b) :
    (∀ i, G.IsEdge i → G.src i ∈ G.region a b → G.dst i ∉ G.region a b → i = b) ↔
      ∀ v, G.Avoiding b (G.dst a) v → G.Connected v (G.src b) := by
  constructor
  · intro hexit v hv
    have hmem : v ∈ G.region a b := by
      refine hv.stays h.entry_dst ?_
      intro i hi hne hsrc
      by_contra hdst
      exact hne (hexit i hi hsrc hdst)
    exact hmem.2.connected
  · intro hreturn i hi hsrc hdst
    by_contra hne
    have hforward : G.Avoiding b (G.dst a) (G.dst i) := hsrc.1.trans (.edge hi hne)
    rcases (avoiding_src (hreturn _ hforward)).before a with hback | ⟨-, -, hback⟩
    · exact hdst ⟨hforward, hback.mono fun _ hj => hj.2⟩
    · exact h.equivalent.left (hforward.trans (hback.mono fun _ hj => hj.1.2))

/-- The vertices of a region are reachable. -/
theorem reached (hG : G.Flow root exit) (h : G.IsCandidate root exit a b) {v : V}
    (hv : v ∈ G.region a b) : G.Connected root v :=
  ((hG.reached a h.entry_inner.isEdge).trans (.edge h.entry_inner.isEdge trivial)).trans hv.1.connected

theorem isSese (hG : G.Flow root exit) (h : G.IsCandidate root exit a b)
    (hreturn : ∀ v, G.Avoiding b (G.dst a) v → G.Connected v (G.src b)) :
    G.IsSese root exit a b (G.region a b) where
  entry_inner := h.entry_inner
  exit_inner := h.exit_inner
  ne := h.ne
  reached _ hv := h.reached hG hv
  exit_notMem := h.exit_notMem
  entry_src := h.entry_src
  entry_dst := h.entry_dst
  exit_src := h.exit_src
  exit_dst := h.exit_dst
  only_entry _ hi := h.only_entry hG hi
  only_exit := h.only_exit_iff.2 hreturn

/-- Where every vertex reaches the exit, everything comes back. -/
theorem returns (hG : G.Flow root exit) (hterm : G.Terminating root exit)
    (h : G.IsCandidate root exit a b) {v : V} (hv : G.Avoiding b (G.dst a) v) :
    G.Connected v (G.src b) := by
  have hroot : G.Connected root v :=
    ((hG.reached a h.entry_inner.isEdge).trans (.edge h.entry_inner.isEdge trivial)).trans hv.connected
  rcases (hterm v hroot).before b with hexit | ⟨-, -, hb⟩
  · exact absurd (hv.trans (hexit.mono fun _ hi => hi.2)) h.postdominates
  · exact hb.connected

end IsCandidate

/-! ## Sets with one entry and one exit -/

namespace IsSese

/-- The root is outside: the edge back to it is not the entry. -/
theorem root_notMem (hG : G.Flow root exit) (h : G.IsSese root exit a b N) : root ∉ N := by
  intro hroot
  obtain ⟨i, hi, hsrc, hdst⟩ := hG.back
  have heq := h.only_entry i hi (by rw [hsrc]; exact h.exit_notMem) (by rw [hdst]; exact hroot)
  subst heq
  exact h.entry_inner.src_ne hsrc

/-- Without `b` nothing leaves. -/
theorem stays (h : G.IsSese root exit a b N) {P : I → Prop} {u v : V} (hu : u ∈ N)
    (hwalk : G.Walk P u v) (hP : ∀ i, P i → i ≠ b) : v ∈ N := by
  refine hwalk.stays hu ?_
  intro i hi hPi hsrc
  by_contra hdst
  exact hP i hPi (h.only_exit i hi hsrc hdst)

/-- Without `a` nothing enters. -/
theorem stays_out (h : G.IsSese root exit a b N) {P : I → Prop} {u v : V} (hu : u ∉ N)
    (hwalk : G.Walk P u v) (hP : ∀ i, P i → i ≠ a) : v ∉ N := by
  intro hv
  obtain ⟨i, hi, hPi, hsrc, hdst⟩ := hwalk.exists_entering hu hv
  exact hP i hPi (h.only_entry i hi hsrc hdst)

/-- Where every vertex reaches the exit, such a set is the region of its boundary. -/
theorem region_eq (hG : G.Flow root exit) (hterm : G.Terminating root exit)
    (h : G.IsSese root exit a b N) : G.region a b = N := by
  refine Set.Subset.antisymm ?_ ?_
  · rintro v ⟨hv, -⟩
    exact h.stays h.entry_dst hv fun _ hi => hi
  · intro v hv
    constructor
    · rcases (h.reached v hv).after a with hroot | ⟨-, -, hfrom⟩
      · exact absurd hv (h.stays_out (h.root_notMem hG) hroot fun _ hi => hi.2)
      · rcases hfrom.after b with hforward | ⟨-, -, hlast⟩
        · exact hforward.mono fun _ hi => hi.2
        · exact absurd hv (h.stays_out h.exit_dst hlast fun _ hi => hi.1.2)
    · rcases (hterm v (h.reached v hv)).before b with hexit | ⟨-, -, hto⟩
      · exact absurd (h.stays hv hexit fun _ hi => hi.2) h.exit_notMem
      · rcases hto.before a with hback | ⟨-, -, hfirst⟩
        · exact hback.mono fun _ hi => hi.2
        · exact absurd (h.stays hv hfirst fun _ hi => hi.1.2) h.entry_src

theorem isCandidate (hG : G.Flow root exit) (hterm : G.Terminating root exit)
    (h : G.IsSese root exit a b N) : G.IsCandidate root exit a b where
  entry_inner := h.entry_inner
  exit_inner := h.exit_inner
  ne := h.ne
  dominates hwalk := h.stays_out (h.root_notMem hG) hwalk (fun _ hi => hi) h.exit_src
  postdominates hwalk := h.exit_notMem (h.stays h.entry_dst hwalk fun _ hi => hi)
  equivalent :=
    ⟨fun hwalk => h.entry_src (h.stays h.entry_dst hwalk fun _ hi => hi),
      fun hwalk => h.stays_out h.exit_dst hwalk (fun _ hi => hi) h.exit_src⟩
  nonempty := ⟨G.dst a, by rw [h.region_eq hG hterm]; exact h.entry_dst⟩

end IsSese

/-- Where every vertex reaches the exit, the two notions of a region agree. -/
theorem isSese_iff (hG : G.Flow root exit) (hterm : G.Terminating root exit) :
    G.IsSese root exit a b N ↔ G.IsCandidate root exit a b ∧ G.region a b = N := by
  constructor
  · intro h
    exact ⟨h.isCandidate hG hterm, h.region_eq hG hterm⟩
  · rintro ⟨h, rfl⟩
    exact h.isSese hG fun v hv => h.returns hG hterm hv

/-! ## Two regions -/

namespace IsSese

/-- A region inside another with the same exit leaves a region in front of it. -/
theorem diff_of_exit (h : G.IsSese root exit a b N) (h' : G.IsSese root exit c b M)
    (hsub : M ⊆ N) (hne : a ≠ c) : G.IsSese root exit a c (N \ M) where
  entry_inner := h.entry_inner
  exit_inner := h'.entry_inner
  ne := hne
  reached v hv := h.reached v hv.1
  exit_notMem hv := h.exit_notMem hv.1
  entry_src hv := h.entry_src hv.1
  entry_dst := by
    refine ⟨h.entry_dst, fun hmem => hne ?_⟩
    exact h'.only_entry a h.entry_inner.isEdge (fun hsrc => h.entry_src (hsub hsrc)) hmem
  exit_src := by
    refine ⟨?_, h'.entry_src⟩
    by_contra hsrc
    exact hne (h.only_entry c h'.entry_inner.isEdge hsrc (hsub h'.entry_dst)).symm
  exit_dst hv := hv.2 h'.entry_dst
  -- An edge into the difference comes from outside `N`, or out of `M` through its exit.
  only_entry := by
    rintro i hi hsrc ⟨hdst, hdst'⟩
    by_cases hin : G.src i ∈ N
    · have hM : G.src i ∈ M := by
        by_contra hM
        exact hsrc ⟨hin, hM⟩
      obtain rfl := h'.only_exit i hi hM hdst'
      exact absurd hdst h.exit_dst
    · exact h.only_entry i hi hin hdst
  only_exit := by
    rintro i hi ⟨hsrc, hsrc'⟩ hdst
    by_cases hin : G.dst i ∈ N
    · have hM : G.dst i ∈ M := by
        by_contra hM
        exact hdst ⟨hin, hM⟩
      exact h'.only_entry i hi hsrc' hM
    · obtain rfl := h.only_exit i hi hsrc hin
      exact absurd h'.exit_src hsrc'

/-- A region inside another with the same entry leaves a region behind it. -/
theorem diff_of_entry (h : G.IsSese root exit a b N) (h' : G.IsSese root exit a d M)
    (hsub : M ⊆ N) (hne : d ≠ b) : G.IsSese root exit d b (N \ M) where
  entry_inner := h'.exit_inner
  exit_inner := h.exit_inner
  ne := hne
  reached v hv := h.reached v hv.1
  exit_notMem hv := h.exit_notMem hv.1
  entry_src hv := hv.2 h'.exit_src
  entry_dst := by
    refine ⟨?_, h'.exit_dst⟩
    by_contra hdst
    exact hne (h.only_exit d h'.exit_inner.isEdge (hsub h'.exit_src) hdst)
  exit_src := by
    refine ⟨h.exit_src, fun hmem => hne ?_⟩
    exact (h'.only_exit b h.exit_inner.isEdge hmem fun hdst => h.exit_dst (hsub hdst)).symm
  exit_dst hv := h.exit_dst hv.1
  -- An edge into the difference comes from outside `N` through its entry, or out of `M`.
  only_entry := by
    rintro i hi hsrc ⟨hdst, hdst'⟩
    by_cases hin : G.src i ∈ N
    · have hM : G.src i ∈ M := by
        by_contra hM
        exact hsrc ⟨hin, hM⟩
      exact h'.only_exit i hi hM hdst'
    · obtain rfl := h.only_entry i hi hin hdst
      exact absurd h'.entry_dst hdst'
  only_exit := by
    rintro i hi ⟨hsrc, hsrc'⟩ hdst
    by_cases hin : G.dst i ∈ N
    · have hM : G.dst i ∈ M := by
        by_contra hM
        exact hdst ⟨hin, hM⟩
      obtain rfl := h'.only_entry i hi hsrc' hM
      exact absurd hsrc h.entry_src
    · exact h.only_exit i hi hsrc hin

/-- A nonempty part of a region is entered. -/
theorem exists_entering (hG : G.Flow root exit) (h : G.IsSese root exit a b N) {S : Set V}
    (hsub : S ⊆ N) (hS : S.Nonempty) : ∃ i, G.IsEdge i ∧ G.src i ∉ S ∧ G.dst i ∈ S := by
  obtain ⟨v, hv⟩ := hS
  obtain ⟨i, hi, -, hsrc, hdst⟩ := (h.reached v (hsub hv)).exists_entering
    (fun hroot => h.root_notMem hG (hsub hroot)) hv
  exact ⟨i, hi, hsrc, hdst⟩

/-- A nonempty part of a region is left. -/
theorem exists_leaving (hterm : G.Terminating root exit) (h : G.IsSese root exit a b N)
    {S : Set V} (hsub : S ⊆ N) (hS : S.Nonempty) :
    ∃ i, G.IsEdge i ∧ G.src i ∈ S ∧ G.dst i ∉ S := by
  obtain ⟨v, hv⟩ := hS
  obtain ⟨i, hi, -, hsrc, hdst⟩ := (hterm v (h.reached v (hsub hv))).exists_leaving hv
    fun hexit => h.exit_notMem (hsub hexit)
  exact ⟨i, hi, hsrc, hdst⟩

/-- The ways into the part of `N` outside `M`. -/
theorem enters_diff (hG : G.Flow root exit) (h : G.IsSese root exit a b N)
    (h' : G.IsSese root exit c d M) (hne : (N \ M).Nonempty) :
    G.dst a ∉ M ∨ (G.src d ∈ N ∧ G.dst d ∈ N) := by
  obtain ⟨i, hi, hsrc, hdst, hdst'⟩ := h.exists_entering hG Set.sdiff_subset hne
  by_cases hin : G.src i ∈ N
  · have hM : G.src i ∈ M := by
      by_contra hM
      exact hsrc ⟨hin, hM⟩
    obtain rfl := h'.only_exit i hi hM hdst'
    exact .inr ⟨hin, hdst⟩
  · obtain rfl := h.only_entry i hi hin hdst
    exact .inl hdst'

/-- The ways out of it. -/
theorem leaves_diff (hterm : G.Terminating root exit) (h : G.IsSese root exit a b N)
    (h' : G.IsSese root exit c d M) (hne : (N \ M).Nonempty) :
    G.src b ∉ M ∨ (G.src c ∈ N ∧ G.dst c ∈ N) := by
  obtain ⟨i, hi, ⟨hsrc, hsrc'⟩, hdst⟩ := h.exists_leaving hterm Set.sdiff_subset hne
  by_cases hin : G.dst i ∈ N
  · have hM : G.dst i ∈ M := by
      by_contra hM
      exact hdst ⟨hin, hM⟩
    obtain rfl := h'.only_entry i hi hsrc' hM
    exact .inr ⟨hsrc, hin⟩
  · obtain rfl := h.only_exit i hi hsrc hin
    exact .inl hsrc'

/-- `M` begins inside `N` and goes on after it: `N` is what comes before `M`, then the overlap. -/
theorem split_of_overlap (h : G.IsSese root exit a b N) (h' : G.IsSese root exit c d M)
    (ha : G.dst a ∉ M) (hd : G.src d ∉ N) (hc : G.src c ∈ N) (hc' : G.dst c ∈ N)
    (hb : G.src b ∈ M) :
    G.IsSese root exit a c (N \ M) ∧ G.IsSese root exit c b (N ∩ M) := by
  constructor
  · -- Above the overlap: in through `a`, out through `c`, which enters the overlap.
    constructor
    · exact h.entry_inner
    · exact h'.entry_inner
    · rintro rfl
      exact ha h'.entry_dst
    · exact fun v hv => h.reached v hv.1
    · exact fun hv => h.exit_notMem hv.1
    · exact fun hv => h.entry_src hv.1
    · exact ⟨h.entry_dst, ha⟩
    · exact ⟨hc, h'.entry_src⟩
    · exact fun hv => hv.2 h'.entry_dst
    · rintro i hi hsrc ⟨hdst, hdst'⟩
      by_cases hin : G.src i ∈ N
      · obtain rfl := h'.only_exit i hi (by by_contra hM; exact hsrc ⟨hin, hM⟩) hdst'
        exact absurd hin hd
      · exact h.only_entry i hi hin hdst
    · rintro i hi ⟨hsrc, hsrc'⟩ hdst
      by_cases hin : G.dst i ∈ N
      · exact h'.only_entry i hi hsrc' (by by_contra hM; exact hdst ⟨hin, hM⟩)
      · obtain rfl := h.only_exit i hi hsrc hin
        exact absurd hb hsrc'
  · -- The overlap: in through `c`, out through `b`.
    constructor
    · exact h'.entry_inner
    · exact h.exit_inner
    · rintro rfl
      exact h'.entry_src hb
    · exact fun v hv => h.reached v hv.1
    · exact fun hv => h.exit_notMem hv.1
    · exact fun hv => h'.entry_src hv.2
    · exact ⟨hc', h'.entry_dst⟩
    · exact ⟨h.exit_src, hb⟩
    · exact fun hv => h.exit_dst hv.1
    · rintro i hi hsrc ⟨hdst, hdst'⟩
      by_cases hin : G.src i ∈ M
      · obtain rfl := h.only_entry i hi (fun hN => hsrc ⟨hN, hin⟩) hdst
        exact absurd hdst' ha
      · exact h'.only_entry i hi hin hdst'
    · rintro i hi ⟨hsrc, hsrc'⟩ hdst
      by_cases hin : G.dst i ∈ N
      · obtain rfl := h'.only_exit i hi hsrc' fun hM => hdst ⟨hin, hM⟩
        exact absurd hsrc hd
      · exact h.only_exit i hi hsrc hin

/-- `M` begins before `N` and ends inside it: `N` is the overlap, then what comes after `M`. -/
theorem split_of_overlap_exit (h : G.IsSese root exit a b N) (h' : G.IsSese root exit c d M)
    (ha : G.dst a ∈ M) (hd : G.src d ∈ N) (hd' : G.dst d ∈ N) (hc : G.dst c ∉ N)
    (hb : G.src b ∉ M) :
    G.IsSese root exit a d (N ∩ M) ∧ G.IsSese root exit d b (N \ M) := by
  constructor
  -- The overlap: in through `a`, out through `d`.
  · constructor
    · exact h.entry_inner
    · exact h'.exit_inner
    · rintro rfl
      exact h'.exit_dst ha
    · exact fun v hv => h.reached v hv.1
    · exact fun hv => h.exit_notMem hv.1
    · exact fun hv => h.entry_src hv.1
    · exact ⟨h.entry_dst, ha⟩
    · exact ⟨hd, h'.exit_src⟩
    · exact fun hv => h'.exit_dst hv.2
    · rintro i hi hsrc ⟨hdst, hdst'⟩
      by_cases hin : G.src i ∈ N
      · obtain rfl := h'.only_entry i hi (fun hM => hsrc ⟨hin, hM⟩) hdst'
        exact absurd hdst hc
      · exact h.only_entry i hi hin hdst
    · rintro i hi ⟨hsrc, hsrc'⟩ hdst
      by_cases hin : G.dst i ∈ M
      · obtain rfl := h.only_exit i hi hsrc fun hN => hdst ⟨hN, hin⟩
        exact absurd hsrc' hb
      · exact h'.only_exit i hi hsrc' hin
  -- What comes after: in through `d`, out through `b`.
  · constructor
    · exact h'.exit_inner
    · exact h.exit_inner
    · rintro rfl
      exact hb h'.exit_src
    · exact fun v hv => h.reached v hv.1
    · exact fun hv => h.exit_notMem hv.1
    · exact fun hv => hv.2 h'.exit_src
    · exact ⟨hd', h'.exit_dst⟩
    · exact ⟨h.exit_src, hb⟩
    · exact fun hv => h.exit_dst hv.1
    · rintro i hi hsrc ⟨hdst, hdst'⟩
      by_cases hin : G.src i ∈ N
      · exact h'.only_exit i hi (by by_contra hM; exact hsrc ⟨hin, hM⟩) hdst'
      · obtain rfl := h.only_entry i hi hin hdst
        exact absurd ha hdst'
    · rintro i hi ⟨hsrc, hsrc'⟩ hdst
      by_cases hin : G.dst i ∈ N
      · obtain rfl := h'.only_entry i hi hsrc' (by by_contra hM; exact hdst ⟨hin, hM⟩)
        exact absurd hin hc
      · exact h.only_exit i hi hsrc hin

/-- Regions that cross are made of smaller ones, and differ in both boundary edges. -/
theorem split_of_cross (hG : G.Flow root exit) (hterm : G.Terminating root exit)
    (h : G.IsSese root exit a b N) (h' : G.IsSese root exit c d M) (hcross : Crosses N M) :
    (∃ e N₁ N₂, G.IsSese root exit a e N₁ ∧ G.IsSese root exit e b N₂ ∧ N₁ ⊂ N ∧ N₂ ⊂ N) ∧
      a ≠ c ∧ b ≠ d := by
  obtain ⟨hI, hP, hQ⟩ := hcross
  have hproper : N \ M ⊂ N ∧ N ∩ M ⊂ N := by
    obtain ⟨x, hxN, hxM⟩ := hI
    obtain ⟨y, hyN, hyM⟩ := hP
    exact ⟨⟨Set.sdiff_subset, fun hsub => (hsub hxN).2 hxM⟩,
      ⟨Set.inter_subset_left, fun hsub => hyM (hsub hyN).2⟩⟩
  -- Into `N \ M` leads the entry of `N`, or the exit of `M`.
  rcases h.enters_diff hG h' hP with ha | ⟨hd, hd'⟩
  · rcases h'.leaves_diff hterm h hQ with hd | ⟨-, ha'⟩
    · rcases h.leaves_diff hterm h' hP with hb | ⟨hc, hc'⟩
      · -- Then nothing enters the overlap.
        exfalso
        obtain ⟨i, hi, hsrc, hdst, hdst'⟩ := h.exists_entering hG Set.inter_subset_left hI
        by_cases hin : G.src i ∈ N
        · obtain rfl := h'.only_entry i hi (fun hM => hsrc ⟨hin, hM⟩) hdst'
          rcases h'.enters_diff hG h hQ with hc | ⟨hb', -⟩
          · exact hc hdst
          · exact hb hb'
        · obtain rfl := h.only_entry i hi hin hdst
          exact ha hdst'
      · rcases h'.enters_diff hG h hQ with hc'' | ⟨hb, -⟩
        · exact absurd hc' hc''
        · obtain ⟨hfirst, hsecond⟩ := h.split_of_overlap h' ha hd hc hc' hb
          refine ⟨⟨c, _, _, hfirst, hsecond, hproper⟩, ?_, ?_⟩
          · rintro rfl
            exact ha h'.entry_dst
          · rintro rfl
            exact hd h.exit_src
    · exact absurd ha' ha
  · rcases h'.leaves_diff hterm h hQ with hd'' | ⟨ha, ha'⟩
    · exact absurd hd hd''
    · rcases h.leaves_diff hterm h' hP with hb | ⟨hc, hc'⟩
      · rcases h'.enters_diff hG h hQ with hc | ⟨hb', -⟩
        · obtain ⟨hfirst, hsecond⟩ := h.split_of_overlap_exit h' ha' hd hd' hc hb
          refine ⟨⟨d, _, _, hfirst, hsecond, hproper.2, hproper.1⟩, ?_, ?_⟩
          · rintro rfl
            exact hc h.entry_dst
          · rintro rfl
            exact hb h'.exit_src
        · exact absurd hb' hb
      · -- Then nothing enters the union.
        exfalso
        obtain ⟨v, hv, -⟩ := hI
        obtain ⟨i, hi, -, hsrc, hdst⟩ := (h.reached v hv).exists_entering (S := N ∪ M)
          (by
            rintro (hroot | hroot)
            · exact h.root_notMem hG hroot
            · exact h'.root_notMem hG hroot)
          (.inl hv)
        rw [Set.mem_union, not_or] at hsrc
        rcases hdst with hdst | hdst
        · obtain rfl := h.only_entry i hi hsrc.1 hdst
          exact hsrc.2 ha
        · obtain rfl := h'.only_entry i hi hsrc.2 hdst
          exact hsrc.1 hc

/-! ### Regions in sequence -/

/-- A region that begins where another ends does not hold the source of its entry: nothing would
enter the two. -/
theorem entry_src_notMem_next (hG : G.Flow root exit) (h : G.IsSese root exit a b N)
    (h' : G.IsSese root exit b c M) : G.src a ∉ M := by
  obtain ⟨i, hi, -, hsrc, hdst⟩ := (h.reached _ h.entry_dst).exists_entering (S := N ∪ M)
    (by
      rintro (hroot | hroot)
      · exact h.root_notMem hG hroot
      · exact h'.root_notMem hG hroot)
    (.inl h.entry_dst)
  rw [Set.mem_union, not_or] at hsrc
  rcases hdst with hdst | hdst
  · obtain rfl := h.only_entry i hi hsrc.1 hdst
    exact hsrc.2
  · obtain rfl := h'.only_entry i hi hsrc.2 hdst
    exact absurd h.exit_src hsrc.1

theorem disjoint_next (hG : G.Flow root exit) (h : G.IsSese root exit a b N)
    (h' : G.IsSese root exit b c M) : Disjoint N M := by
  rw [Set.disjoint_iff_inter_eq_empty, ← Set.not_nonempty_iff_eq_empty]
  intro hcommon
  obtain ⟨i, hi, hsrc, hdst, hdst'⟩ := h.exists_entering hG Set.inter_subset_left hcommon
  by_cases hin : G.src i ∈ N
  · -- From `N` the second region is entered along `b`, which leaves the first.
    obtain rfl := h'.only_entry i hi (fun hM => hsrc ⟨hin, hM⟩) hdst'
    exact h.exit_dst hdst
  · obtain rfl := h.only_entry i hi hin hdst
    exact h.ne (h'.only_entry i hi (h.entry_src_notMem_next hG h') hdst')

/-- Two regions, one after the other, are a region. -/
theorem comp (hG : G.Flow root exit) (h : G.IsSese root exit a b N)
    (h' : G.IsSese root exit b c M) : G.IsSese root exit a c (N ∪ M) where
  entry_inner := h.entry_inner
  exit_inner := h'.exit_inner
  ne := by
    rintro rfl
    exact h.entry_src_notMem_next hG h' h'.exit_src
  reached := by
    rintro v (hv | hv)
    · exact h.reached v hv
    · exact h'.reached v hv
  exit_notMem := by
    rintro (hv | hv)
    · exact h.exit_notMem hv
    · exact h'.exit_notMem hv
  entry_src := by
    rintro (hv | hv)
    · exact h.entry_src hv
    · exact h.entry_src_notMem_next hG h' hv
  entry_dst := .inl h.entry_dst
  exit_src := .inr h'.exit_src
  exit_dst := by
    rintro (hv | hv)
    · have hsrc : G.src c ∉ N :=
        fun hN => Set.disjoint_left.1 (h.disjoint_next hG h') hN h'.exit_src
      obtain rfl := h.only_entry c h'.exit_inner.isEdge hsrc hv
      exact h.entry_src_notMem_next hG h' h'.exit_src
    · exact h'.exit_dst hv
  -- An edge into the union enters the first part, or the second from outside the first.
  only_entry := by
    rintro i hi hsrc hdst
    rw [Set.mem_union, not_or] at hsrc
    rcases hdst with hdst | hdst
    · exact h.only_entry i hi hsrc.1 hdst
    · obtain rfl := h'.only_entry i hi hsrc.2 hdst
      exact absurd h.exit_src hsrc.1
  only_exit := by
    rintro i hi hsrc hdst
    rw [Set.mem_union, not_or] at hdst
    rcases hsrc with hsrc | hsrc
    · obtain rfl := h.only_exit i hi hsrc hdst.1
      exact absurd h'.entry_dst hdst.2
    · exact h'.only_exit i hi hsrc hdst.2

end IsSese

/-! ## Graphs that differ in their names -/

namespace Renaming

variable {W J : Type} {H : Multigraph W J} {Live : V → Prop} {vert : V → W} {edge : I → J}

theorem inner_iff (R : Renaming G H Live vert edge) (hexit : Live exit) (ha : G.IsEdge a) :
    G.Inner exit a ↔ H.Inner (vert exit) (edge a) := by
  have hvert : ∀ v, Live v → (v ≠ exit ↔ vert v ≠ vert exit) := fun v hv =>
    not_congr ⟨fun h => h ▸ rfl, R.vert_inj v exit hv hexit⟩
  constructor
  · rintro ⟨-, hsrc, hdst⟩
    refine ⟨R.isEdge a ha, ?_, ?_⟩
    · rw [R.src a ha]
      exact (hvert _ (R.src_live a ha)).1 hsrc
    · rw [R.dst a ha]
      exact (hvert _ (R.dst_live a ha)).1 hdst
  · rintro ⟨-, hsrc, hdst⟩
    rw [R.src a ha] at hsrc
    rw [R.dst a ha] at hdst
    exact ⟨ha, (hvert _ (R.src_live a ha)).2 hsrc, (hvert _ (R.dst_live a ha)).2 hdst⟩

theorem cycleEquivalent_iff (R : Renaming G H Live vert edge) (ha : G.IsEdge a)
    (hb : G.IsEdge b) : G.CycleEquivalent a b ↔ H.CycleEquivalent (edge a) (edge b) := by
  have hleft := R.avoiding_iff hb (R.dst_live a ha) (R.src_live a ha)
  have hright := R.avoiding_iff ha (R.dst_live b hb) (R.src_live b hb)
  rw [← R.dst a ha, ← R.src a ha] at hleft
  rw [← R.dst b hb, ← R.src b hb] at hright
  constructor
  · exact fun h => ⟨fun hw => h.left (hleft.2 hw), fun hw => h.right (hright.2 hw)⟩
  · exact fun h => ⟨fun hw => h.left (hleft.1 hw), fun hw => h.right (hright.1 hw)⟩

theorem mem_region_iff (R : Renaming G H Live vert edge) (ha : G.IsEdge a) (hb : G.IsEdge b)
    {v : V} (hv : Live v) : v ∈ G.region a b ↔ vert v ∈ H.region (edge a) (edge b) := by
  have hfrom := R.avoiding_iff hb (R.dst_live a ha) hv
  have hto := R.avoiding_iff ha hv (R.src_live b hb)
  rw [← R.dst a ha] at hfrom
  rw [← R.src b hb] at hto
  exact and_congr hfrom hto

/-- Everything in a region has a name in the other graph. -/
theorem exists_of_mem_region (R : Renaming G H Live vert edge) (ha : G.IsEdge a)
    (hb : G.IsEdge b) {w : W} (hw : w ∈ H.region (edge a) (edge b)) :
    ∃ v, Live v ∧ vert v = w ∧ v ∈ G.region a b := by
  have hwalk := hw.1
  rw [R.dst a ha] at hwalk
  obtain ⟨v, hv, rfl, -⟩ := R.walk_lift (P := fun _ => True) (fun _ _ _ => trivial)
    (R.dst_live a ha) hwalk
  exact ⟨v, hv, rfl, (R.mem_region_iff ha hb hv).2 hw⟩

theorem isCandidate_iff (R : Renaming G H Live vert edge) (hroot : Live root) (hexit : Live exit)
    (ha : G.IsEdge a) (hb : G.IsEdge b) :
    G.IsCandidate root exit a b ↔ H.IsCandidate (vert root) (vert exit) (edge a) (edge b) := by
  have hdom := R.avoiding_iff ha hroot (R.src_live b hb)
  have hpost := R.avoiding_iff hb (R.dst_live a ha) hexit
  rw [← R.src b hb] at hdom
  rw [← R.dst a ha] at hpost
  constructor
  · intro h
    refine ⟨(R.inner_iff hexit ha).1 h.entry_inner, (R.inner_iff hexit hb).1 h.exit_inner,
      fun heq => h.ne (R.inj a b ha hb heq), fun hw => h.dominates (hdom.2 hw),
      fun hw => h.postdominates (hpost.2 hw), (R.cycleEquivalent_iff ha hb).1 h.equivalent, ?_⟩
    have hmem := h.entry_dst
    exact ⟨_, (R.mem_region_iff ha hb (R.dst_live a ha)).1 hmem⟩
  · intro h
    refine ⟨(R.inner_iff hexit ha).2 h.entry_inner, (R.inner_iff hexit hb).2 h.exit_inner,
      fun heq => h.ne (heq ▸ rfl), fun hw => h.dominates (hdom.1 hw),
      fun hw => h.postdominates (hpost.1 hw), (R.cycleEquivalent_iff ha hb).2 h.equivalent, ?_⟩
    obtain ⟨w, hw⟩ := h.nonempty
    obtain ⟨v, -, -, hv⟩ := R.exists_of_mem_region ha hb hw
    exact ⟨v, hv⟩

end Renaming

end Multigraph

end Foundation
end Jstd
