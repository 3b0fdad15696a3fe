import Jstd.Dominator.Forest
import Jstd.Foundation.Semidominator

/-!
# The two passes of Lengauer–Tarjan

The main loop processes the numbers in decreasing order.  `Processed w` is its invariant: above `w`
the forest is linked, `semi` holds the semidominators, and a vertex waits in the bucket of its
semidominator until the child it hangs below there is processed, when `idom` is decided up to the
second pass (`Deferred`).  The second pass then settles `idom` in increasing order.
-/

namespace Jstd
namespace Dominator

open Foundation LtState

variable {N : Type} {E : Nat → Nat → Prop} {parent : Nat → Nat} {n w m : Nat}

/-- What `idom[v]` holds between the passes: the semidominator, when no vertex on the tree path
below it has a smaller one, and otherwise a vertex with the least. -/
def Deferred (E : Nat → Nat → Prop) (parent : Nat → Nat) (v i : Nat) : Prop :=
  (i = sdom E v ∧ ∀ x, sdom E v < x → Anc parent x v → sdom E v ≤ sdom E x) ∨
    (sdom E v < i ∧ Anc parent i v ∧ sdom E i < sdom E v ∧
      ∀ x, sdom E v < x → Anc parent x v → sdom E i ≤ sdom E x)

/-- The main loop has linked the vertices above `w` and emptied the buckets for those above `m`;
`s₀` is the state it began in.  Between two turns `m` is `w`. -/
structure Processed (E : Nat → Nat → Prop) (parent : Nat → Nat) (n w m : Nat)
    (s₀ s : LtState N) : Prop where
  sized : Sized n s
  vertex_eq : s.vertex = s₀.vertex
  parent_eq : s.parent = s₀.parent
  pred_eq : s.pred = s₀.pred
  forest : Forest parent n w s
  semi_above : ∀ {u : Nat}, w < u → u ≤ n → s.semiOf u = sdom E u
  semi_below : ∀ {r : Nat}, 1 ≤ r → r ≤ w → s.semiOf r = r
  /-- A bucket holds vertices below a child that is still to be processed. -/
  bucket_sound : ∀ {b v : Nat}, v ∈ s.bucketOf b → w < v ∧ v ≤ n ∧ sdom E v = b ∧
    ∃ c, 2 ≤ c ∧ parent c = b ∧ Anc parent c v ∧ c ≤ m
  decided : ∀ {v : Nat}, w < v → v ≤ n →
    v ∈ s.bucketOf (sdom E v) ∨ Deferred E parent v (s.idomOf v)

/-! ## Lowering semi -/

/-- The state while the predecessors `done` of `w` have been evaluated. -/
structure Lowering (E : Nat → Nat → Prop) (parent : Nat → Nat) (n w : Nat) (s t : LtState N)
    (done : List Nat) : Prop where
  rest : ∃ A L S, t = { s with ancestor := A, label := L, semi := S }
  sized : Sized n t
  forest : Forest parent n w t
  semi_other : ∀ x, x ≠ w → t.semiOf x = s.semiOf x
  semi_ge : sdom E w ≤ t.semiOf w
  semi_le_pred : ∀ v ∈ done, v < w → t.semiOf w ≤ v
  semi_le_anc : ∀ v ∈ done, ∀ u, w < u → Anc parent u v → t.semiOf w ≤ sdom E u

/-- Writing a lower value into `semi[w]`, or leaving it. -/
theorem lowerSemi_run {s t : LtState N} (ht : Sized n t) {fuel v u : Nat} (hw : w ≤ n)
    (hu : u ≤ n) (heval : (eval fuel v).run s = (.ok u, t)) :
    ∃ S, (lowerSemi fuel w v).run s = (.ok (), { t with semi := S }) ∧ S.length = n + 1 ∧
      (∀ x, x ≠ w → S.getD x 0 = t.semiOf x) ∧
      S.getD w 0 = min (t.semiOf u) (t.semiOf w) := by
  have hwl : w < t.semi.length := by rw [ht.semi]; omega
  have eU : index t.semi u = .ok (t.semiOf u) := index_of_lt (by rw [ht.semi]; omega) 0
  have eW : index t.semi w = .ok (t.semiOf w) := index_of_lt hwl 0
  rw [lowerSemi, Method.run_bind_of_ok heval]
  simp only [Method.run_bind_get, eU, eW, Method.run_bind_liftM_ok]
  by_cases hlt : t.semiOf u < t.semiOf w
  · refine ⟨t.semi.set w (t.semiOf u), ?_, by rw [List.length_set, ht.semi], ?_, ?_⟩
    · rw [if_pos hlt, setIndex_of_lt hwl]
      rfl
    · intro x hx
      rw [getD_set, if_neg (by rintro ⟨h, -⟩; exact hx h.symm)]
      rfl
    · rw [getD_set, if_pos ⟨rfl, hwl⟩]
      omega
  · refine ⟨t.semi, by rw [if_neg hlt]; rfl, ht.semi, fun _ _ => rfl, ?_⟩
    show t.semiOf w = _
    omega

theorem Processed.semiBounds (D : DepthFirst E parent n) {s₀ s t : LtState N}
    (hs : Processed E parent n w m s₀ s) (hw : 1 ≤ w)
    (hsame : ∀ x, x ≠ w → t.semiOf x = s.semiOf x) : SemiBounds parent n w t where
  above := by
    intro u hu hun
    rw [hsame u (by omega), hs.semi_above hu hun]
    exact sdom_le (.edge (D.parent_edge (by omega) hun))
  below := by
    intro r hr hrw
    rw [hsame r (by omega), hs.semi_below hr (Nat.le_of_lt hrw)]

theorem Lowering.step (D : DepthFirst E parent n) {s₀ s t : LtState N}
    (hs : Processed E parent n w m s₀ s) (hw : 1 ≤ w) (hwn : w ≤ n) {fuel : Nat} (hfuel : n ≤ fuel)
    {done : List Nat} (ht : Lowering E parent n w s t done) {v : Nat} (hv : E v w) :
    ∃ t', (lowerSemi fuel w v).run t = (.ok (), t') ∧
      Lowering E parent n w s t' (done ++ [v]) := by
  obtain ⟨hv1, hvn, -, -⟩ := D.bounds hv
  have hbounds := hs.semiBounds D hw ht.semi_other
  obtain ⟨A, L, u, heval, ht₁, hF₁, hroot, hlinked⟩ :=
    eval_spec D ht.sized ht.forest hbounds hv1 hvn (Nat.le_trans hvn hfuel)
  have hun : u ≤ n := by
    rcases Nat.lt_or_ge w v with hlt | hge
    · exact Nat.le_trans (D.anc_le (hlinked hlt).1 hvn) hvn
    · rw [hroot hge]
      exact hvn
  obtain ⟨S, hrun, hlen, hother, hmin⟩ := lowerSemi_run ht₁ hwn hun heval
  -- The value compared with is a candidate for the semidominator, or `semi[w]` itself.
  have hge : sdom E w ≤ t.semiOf u := by
    rcases Nat.lt_trichotomy v w with hlt | rfl | hgt
    · rw [hroot (by omega), ht.semi_other v (by omega), hs.semi_below hv1 (by omega)]
      exact sdom_le (.edge hv)
    · rw [hroot (Nat.le_refl v)]
      exact ht.semi_ge
    · obtain ⟨huv, hwu, -⟩ := hlinked hgt
      rcases Nat.lt_or_eq_of_le hwu with h | rfl
      · rw [ht.semi_other u (by omega), hs.semi_above h hun]
        exact D.sdom_le_of_anc hv huv h
      · exact ht.semi_ge
  obtain ⟨A₀, L₀, S₀, hrest⟩ := ht.rest
  refine ⟨{ t with ancestor := A, label := L, semi := S }, hrun, ?_⟩
  have hminW : ({ t with ancestor := A, label := L, semi := S } : LtState N).semiOf w =
      min (t.semiOf u) (t.semiOf w) := hmin
  constructor
  · exact ⟨A, L, S, by rw [hrest]⟩
  · exact { ht₁ with semi := hlen }
  · refine ⟨hF₁.root, hF₁.root_label, ?_⟩
    intro x hwx hxn
    refine (hF₁.linked hwx hxn).lower hother ?_
    rw [hminW]
    exact Nat.min_le_right _ _
  · intro x hx
    exact (hother x hx).trans (ht.semi_other x hx)
  · rw [hminW]
    have := ht.semi_ge
    omega
  · intro v' hv' hlt
    rw [hminW]
    rcases List.mem_append.1 hv' with hv' | hv'
    · have := ht.semi_le_pred v' hv' hlt
      omega
    · obtain rfl := List.mem_singleton.1 hv'
      rw [hroot (Nat.le_of_lt hlt), ht.semi_other v' (by omega),
        hs.semi_below hv1 (Nat.le_of_lt hlt)]
      exact Nat.min_le_left _ _
  · intro v' hv' x hwx hxv
    rw [hminW]
    rcases List.mem_append.1 hv' with hv' | hv'
    · have := ht.semi_le_anc v' hv' x hwx hxv
      omega
    · obtain rfl := List.mem_singleton.1 hv'
      have hxle := D.anc_le hxv hvn
      have hmin' := (hlinked (by omega)).2.2 x hwx hxv
      rw [ht.semi_other x (by omega), hs.semi_above hwx (by omega)] at hmin'
      omega

/-- After all predecessors `semi[w]` is the semidominator of `w`. -/
theorem lowerSemi_loop (D : DepthFirst E parent n) {s₀ s : LtState N}
    (hs : Processed E parent n w m s₀ s) (hw : 2 ≤ w) (hwn : w ≤ n) {fuel : Nat} (hfuel : n ≤ fuel)
    {preds : List Nat} (hpreds : ∀ v, v ∈ preds ↔ E v w) :
    ∃ t, (Method.forEach (lowerSemi fuel w) preds).run s = (.ok (), t) ∧
      Lowering E parent n w s t preds ∧ t.semiOf w = sdom E w := by
  have hlt := D.sdom_lt hw hwn
  obtain ⟨t, hrun, ht⟩ := Method.forEach_induction (lowerSemi fuel w)
    (fun done t => Lowering E parent n w s t done) preds (s := s)
    { rest := ⟨_, _, _, rfl⟩
      sized := hs.sized
      forest := hs.forest
      semi_other := fun _ _ => rfl
      semi_ge := by
        rw [hs.semi_below (by omega) (Nat.le_refl w)]
        exact Nat.le_of_lt hlt
      semi_le_pred := by simp
      semi_le_anc := by simp }
    (by
      intro done v rest t hsplit ht
      refine ht.step D hs (by omega) hwn hfuel ((hpreds v).1 ?_)
      rw [hsplit]
      simp)
  refine ⟨t, hrun, ht, Nat.le_antisymm ?_ ht.semi_ge⟩
  rcases D.sdom_recurrence hw hwn with hedge | ⟨v, u, hvw, huv, hwu, hle⟩
  · exact ht.semi_le_pred _ ((hpreds _).2 hedge) hlt
  · exact Nat.le_trans (ht.semi_le_anc v ((hpreds v).2 hvw) u hwu huv) hle

/-! ## Emptying a bucket -/

/-- The state while the vertices `done` of the bucket of `parent (w + 1)` have been decided. -/
structure Emptying (E : Nat → Nat → Prop) (parent : Nat → Nat) (n w : Nat) (s t : LtState N)
    (done : List Nat) : Prop where
  rest : ∃ A L I, t = { s with ancestor := A, label := L, idom := I }
  sized : Sized n t
  forest : Forest parent n w t
  idom_done : ∀ v ∈ done, Deferred E parent v (t.idomOf v)
  idom_other : ∀ v, v ∉ done → t.idomOf v = s.idomOf v

theorem Emptying.step (D : DepthFirst E parent n) {s t : LtState N} (hw : 1 ≤ w)
    (hwn : w + 1 ≤ n) (hsemi : ∀ {u}, w < u → u ≤ n → s.semiOf u = sdom E u)
    (hsemi' : ∀ {r}, 1 ≤ r → r ≤ w → s.semiOf r = r) {fuel : Nat} (hfuel : n ≤ fuel)
    {done : List Nat} (ht : Emptying E parent n w s t done) {v : Nat} (hvn : v ≤ n)
    (hwv : Anc parent (w + 1) v) (hsdom : sdom E v = parent (w + 1)) :
    ∃ t', (emptyBucket fuel (parent (w + 1)) v).run t = (.ok (), t') ∧
      Emptying E parent n w s t' (done ++ [v]) := by
  have hvw := D.anc_le hwv hvn
  have hplt := D.parent_lt (w := w + 1) (by omega) hwn
  obtain ⟨A₀, L₀, I₀, hrest⟩ := ht.rest
  have hsame : ∀ x, t.semiOf x = s.semiOf x := by
    intro x
    rw [hrest]
    rfl
  have hbounds : SemiBounds parent n w t :=
    { above := by
        intro u hu hun
        rw [hsame, hsemi hu hun]
        exact sdom_le (.edge (D.parent_edge (by omega) hun))
      below := by
        intro r hr hrw
        rw [hsame, hsemi' hr (Nat.le_of_lt hrw)] }
  obtain ⟨A, L, u, heval, ht₁, hF₁, -, hlinked⟩ :=
    eval_spec D ht.sized ht.forest hbounds (by omega) hvn (Nat.le_trans hvn hfuel)
  obtain ⟨huv, hwu, hmin⟩ := hlinked (by omega)
  have hun := D.anc_le huv hvn
  -- The tree path below the bucket's owner is the part above the threshold.
  have hpath : ∀ {x}, parent (w + 1) < x → Anc parent x v → w < x := by
    intro x hx hxv
    by_contra hle
    have hxw := D.anc_of_le hxv hwv hvn (by omega)
    have := D.anc_le (hxw.of_ne (by omega)).2 (by omega)
    omega
  let i := if t.semiOf u < t.semiOf v then u else parent (w + 1)
  have hdeferred : Deferred E parent v i := by
    have hv : t.semiOf v = parent (w + 1) := by
      rw [hsame, hsemi (by omega) hvn, hsdom]
    have hleast : ∀ x, sdom E v < x → Anc parent x v → t.semiOf u ≤ sdom E x := by
      intro x hx hxv
      rw [hsdom] at hx
      have hwx := hpath hx hxv
      have hle := hmin x hwx hxv
      rwa [hsame x, hsemi hwx (Nat.le_trans (D.anc_le hxv hvn) hvn)] at hle
    by_cases hlt : t.semiOf u < t.semiOf v
    · have hi : i = u := if_pos hlt
      rw [hi]
      rw [hv] at hlt
      have hgt : w < u := by
        rcases Nat.lt_or_eq_of_le hwu with h | rfl
        · exact h
        · rw [hsame, hsemi' hw (Nat.le_refl w)] at hlt
          omega
      have hu : t.semiOf u = sdom E u := by rw [hsame, hsemi hgt (by omega)]
      rw [hu] at hlt hleast
      rw [← hsdom] at hlt
      exact .inr ⟨by omega, huv, hlt, hleast⟩
    · have hi : i = parent (w + 1) := if_neg hlt
      rw [hi, ← hsdom]
      refine .inl ⟨rfl, ?_⟩
      intro x hx hxv
      have := hleast x hx hxv
      omega
  have hvl : v < t.idom.length := by rw [ht.sized.idom]; omega
  have eU : index t.semi u = .ok (t.semiOf u) :=
    index_of_lt (by rw [ht.sized.semi]; omega) 0
  have eV : index t.semi v = .ok (t.semiOf v) :=
    index_of_lt (by rw [ht.sized.semi]; omega) 0
  refine ⟨{ t with ancestor := A, label := L, idom := t.idom.set v i }, ?_, ?_⟩
  · rw [emptyBucket, Method.run_bind_of_ok heval]
    simp only [Method.run_bind_get, eU, eV, Method.run_bind_liftM_ok, setIndex_of_lt hvl]
    rfl
  · have hidom : ∀ x, ({ t with ancestor := A, label := L, idom := t.idom.set v i } :
        LtState N).idomOf x = if x = v then i else t.idomOf x := by
      intro x
      rw [idomOf, getD_set]
      by_cases hx : x = v
      · rw [if_pos ⟨hx.symm, hvl⟩, if_pos hx]
      · rw [if_neg (by rintro ⟨h, -⟩; exact hx h.symm), if_neg hx]
        rfl
    constructor
    · exact ⟨A, L, t.idom.set v i, by rw [hrest]⟩
    · exact { ht₁ with idom := by rw [List.length_set, ht.sized.idom] }
    · exact ⟨hF₁.root, hF₁.root_label, hF₁.linked⟩
    · intro x hx
      rw [hidom]
      by_cases hxv : x = v
      · rw [if_pos hxv, hxv]
        exact hdeferred
      · rw [if_neg hxv]
        rcases List.mem_append.1 hx with hx | hx
        · exact ht.idom_done x hx
        · exact absurd (List.mem_singleton.1 hx) hxv
    · intro x hx
      rw [List.mem_append, not_or, List.mem_singleton] at hx
      rw [hidom, if_neg hx.2]
      exact ht.idom_other x hx.1

/-! ## One turn of the main loop -/

/-- Filing `w + 1` in the bucket of its semidominator and linking it to its parent. -/
theorem Lowering.hang (D : DepthFirst E parent n) (hw : 1 ≤ w) (hwn : w + 1 ≤ n)
    {s₀ s t : LtState N} (hs : Processed E parent n (w + 1) (w + 1) s₀ s) {preds : List Nat}
    (ht : Lowering E parent n (w + 1) s t preds) (hsemi : t.semiOf (w + 1) = sdom E (w + 1)) :
    Processed E parent n w (w + 1) s₀
      { t with
        bucket := t.bucket.set (sdom E (w + 1)) (t.bucketOf (sdom E (w + 1)) ++ [w + 1])
        ancestor := t.ancestor.set (w + 1) (parent (w + 1)) } := by
  have hlt := D.sdom_lt (w := w + 1) (by omega) hwn
  have hanc := D.sdom_anc (w := w + 1) (by omega) hwn
  have hsized := ht.sized
  obtain ⟨A, L, S, hrest⟩ := ht.rest
  -- One bucket grows, by the vertex.
  have hbucket : ∀ b, (t.bucket.set (sdom E (w + 1)) (t.bucketOf (sdom E (w + 1)) ++
      [w + 1])).getD b [] = if sdom E (w + 1) = b then s.bucketOf b ++ [w + 1]
        else s.bucketOf b := by
    intro b
    have hsame : ∀ b, t.bucketOf b = s.bucketOf b := by
      intro b
      rw [hrest]
      rfl
    rw [getD_set]
    by_cases hb : sdom E (w + 1) = b
    · rw [if_pos ⟨hb, by rw [hsized.bucket]; omega⟩, if_pos hb, hb, hsame]
    · rw [if_neg (by rintro ⟨h, -⟩; exact hb h), if_neg hb]
      exact hsame b
  constructor
  · exact
      { hsized with
        bucket := by rw [List.length_set, hsized.bucket]
        ancestor := by rw [List.length_set, hsized.ancestor] }
  · rw [← hs.vertex_eq, hrest]
  · rw [← hs.parent_eq, hrest]
  · rw [← hs.pred_eq, hrest]
  · -- One vertex of the forest is linked; the others keep their ancestor.
    have hancestor : ∀ x, (t.ancestor.set (w + 1) (parent (w + 1))).getD x 0 =
        if x = w + 1 then parent (w + 1) else t.ancestorOf x := by
      intro x
      rw [getD_set]
      by_cases hx : x = w + 1
      · rw [if_pos ⟨hx.symm, by rw [hsized.ancestor]; omega⟩, if_pos hx]
      · rw [if_neg (by rintro ⟨h, -⟩; exact hx h.symm), if_neg hx]
        rfl
    constructor
    · intro x hx
      rw [ancestorOf, hancestor, if_neg (by omega)]
      exact ht.forest.root (by omega)
    · intro x hx1 hx
      exact ht.forest.root_label hx1 (by omega)
    · intro x hwx hxn
      rw [ancestorOf, hancestor]
      by_cases hx : x = w + 1
      · rw [if_pos hx, hx]
        have hlink := Linked.link t.semiOf D (by omega) hwn
        have hlab : t.labelOf (w + 1) = w + 1 :=
          ht.forest.root_label (by omega) (Nat.le_refl _)
        show Linked parent w t.semiOf (w + 1) (parent (w + 1)) (t.labelOf (w + 1))
        rw [hlab]
        exact hlink
      · rw [if_neg hx]
        exact (ht.forest.linked (by omega) hxn).descend (Nat.le_succ w)
  · intro u hu hun
    by_cases hne : u = w + 1
    · subst hne
      exact hsemi
    · exact (ht.semi_other u hne).trans (hs.semi_above (by omega) hun)
  · intro r hr hrw
    exact (ht.semi_other r (by omega)).trans (hs.semi_below hr (by omega))
  · intro b v hv
    rw [bucketOf, hbucket] at hv
    have hold : v ∈ s.bucketOf b → w < v ∧ v ≤ n ∧ sdom E v = b ∧
        ∃ c, 2 ≤ c ∧ parent c = b ∧ Anc parent c v ∧ c ≤ w + 1 := by
      intro hv
      obtain ⟨hwv, hrest⟩ := hs.bucket_sound hv
      exact ⟨by omega, hrest⟩
    split at hv
    · rename_i hb
      rcases List.mem_append.1 hv with hv | hv
      · exact hold hv
      · -- The semidominator is an ancestor, so it has a child on the way down.
        obtain rfl := List.mem_singleton.1 hv
        obtain ⟨c, hc2, hcb, hcv⟩ := hanc.exists_child (by omega)
        exact ⟨by omega, hwn, hb, c, hc2, by rw [hcb, hb], hcv, D.anc_le hcv hwn⟩
    · exact hold hv
  · intro v hwv hvn
    rw [bucketOf, hbucket]
    by_cases hne : v = w + 1
    · subst hne
      left
      rw [if_pos rfl]
      simp
    · rcases hs.decided (v := v) (by omega) hvn with hv | hv
      · left
        split
        · exact List.mem_append_left _ hv
        · exact hv
      · right
        have : t.idomOf v = s.idomOf v := by
          rw [hrest]
          rfl
        rw [← this] at hv
        exact hv

/-- What waits in the bucket of `parent (w + 1)` hangs below `w + 1`. -/
theorem Processed.below (D : DepthFirst E parent n) (hwn : w + 1 ≤ n) {s₀ s : LtState N}
    (hs : Processed E parent n w (w + 1) s₀ s) {v : Nat}
    (hv : v ∈ s.bucketOf (parent (w + 1))) : Anc parent (w + 1) v := by
  obtain ⟨hwv, hvn, -, c, hc2, hcp, hcv, hcw⟩ := hs.bucket_sound hv
  have hbetween := D.anc_of_between hcv hvn hcw hwv
  by_cases hne : c = w + 1
  · exact hne ▸ hcv
  · have hle := D.anc_le (hbetween.of_ne hne).2
      (by have := D.parent_lt (hbetween.of_ne hne).1 hwn; omega)
    have := D.parent_lt hc2 (by omega)
    omega

/-- Emptying that bucket. -/
theorem Processed.drain (D : DepthFirst E parent n) (hw : 1 ≤ w) (hwn : w + 1 ≤ n)
    {s₀ s : LtState N} (hs : Processed E parent n w (w + 1) s₀ s) {fuel : Nat}
    (hfuel : n ≤ fuel) :
    ∃ t, (Method.forEach (emptyBucket fuel (parent (w + 1)))
        (s.bucketOf (parent (w + 1)))).run
          { s with bucket := s.bucket.set (parent (w + 1)) [] } = (.ok (), t) ∧
      Processed E parent n w w s₀ t := by
  have hplt := D.parent_lt (w := w + 1) (by omega) hwn
  have hbucket : ∀ b, (s.bucket.set (parent (w + 1)) []).getD b [] =
      if parent (w + 1) = b then [] else s.bucketOf b := by
    intro b
    rw [getD_set]
    by_cases hb : parent (w + 1) = b
    · rw [if_pos ⟨hb, by rw [hs.sized.bucket]; omega⟩, if_pos hb]
    · rw [if_neg (by rintro ⟨h, -⟩; exact hb h), if_neg hb]
      rfl
  obtain ⟨t, hrun, ht⟩ := Method.forEach_induction
    (emptyBucket fuel (parent (w + 1)))
    (fun done t => Emptying E parent n w { s with bucket := s.bucket.set (parent (w + 1)) [] }
      t done)
    (s.bucketOf (parent (w + 1)))
    (s := { s with bucket := s.bucket.set (parent (w + 1)) [] })
    { rest := ⟨_, _, _, rfl⟩
      sized := { hs.sized with bucket := by rw [List.length_set, hs.sized.bucket] }
      forest := ⟨hs.forest.root, hs.forest.root_label, hs.forest.linked⟩
      idom_done := by simp
      idom_other := fun _ _ => rfl }
    (by
      intro done v rest t hsplit ht
      have hv : v ∈ s.bucketOf (parent (w + 1)) := by
        rw [hsplit]
        simp
      obtain ⟨-, hvn, hsdom, -⟩ := hs.bucket_sound hv
      exact Emptying.step D (s := { s with bucket := s.bucket.set (parent (w + 1)) [] }) hw hwn
        hs.semi_above hs.semi_below hfuel ht hvn (hs.below D hwn hv) hsdom)
  refine ⟨t, hrun, ?_⟩
  obtain ⟨A, L, I, hrest⟩ := ht.rest
  have hsemi : ∀ x, t.semiOf x = s.semiOf x := by
    intro x
    rw [hrest]
    rfl
  have hbucket' : ∀ b, t.bucketOf b = if parent (w + 1) = b then [] else s.bucketOf b := by
    intro b
    rw [hrest]
    exact hbucket b
  constructor
  · exact ht.sized
  · rw [← hs.vertex_eq, hrest]
  · rw [← hs.parent_eq, hrest]
  · rw [← hs.pred_eq, hrest]
  · exact ht.forest
  · intro u hu hun
    rw [hsemi]
    exact hs.semi_above hu hun
  · intro r hr hrw
    rw [hsemi]
    exact hs.semi_below hr hrw
  · intro b v hv
    rw [hbucket'] at hv
    split at hv
    · cases hv
    · rename_i hb
      obtain ⟨hwv, hvn, hsdom, c, hc2, hcb, hcv, hcw⟩ := hs.bucket_sound hv
      refine ⟨hwv, hvn, hsdom, c, hc2, hcb, hcv, ?_⟩
      -- The child `w + 1` is the only one lost, and it hangs below the emptied bucket.
      by_contra hlt
      obtain rfl : c = w + 1 := by omega
      exact hb hcb
  · intro v hwv hvn
    by_cases hmem : v ∈ s.bucketOf (parent (w + 1))
    · exact .inr (ht.idom_done v hmem)
    · rcases hs.decided hwv hvn with hv | hv
      · left
        rw [hbucket', if_neg]
        · exact hv
        · intro heq
          rw [heq] at hmem
          exact hmem hv
      · right
        rw [ht.idom_other v hmem]
        exact hv

/-- One turn of the main loop. -/
theorem processVertex_spec (D : DepthFirst E parent n) (hw : 1 ≤ w) (hwn : w + 1 ≤ n)
    {s₀ s : LtState N} (hs : Processed E parent n (w + 1) (w + 1) s₀ s) {fuel : Nat}
    (hfuel : n ≤ fuel) (hparent : index s₀.parent (w + 1) = .ok (parent (w + 1)))
    {preds : List Nat} (hpred : index s₀.pred (w + 1) = .ok preds)
    (hpreds : ∀ v, v ∈ preds ↔ E v (w + 1)) :
    ∃ t, (processVertex fuel (w + 1)).run s = (.ok (), t) ∧ Processed E parent n w w s₀ t := by
  have hplt := D.parent_lt (w := w + 1) (by omega) hwn
  have hsdom := D.sdom_lt (w := w + 1) (by omega) hwn
  obtain ⟨t, hlower, ht, hsemi⟩ := lowerSemi_loop D hs (by omega) hwn hfuel hpreds
  have hhung := ht.hang D hw hwn hs hsemi
  obtain ⟨t', hdrain, ht'⟩ := hhung.drain D hw hwn hfuel
  refine ⟨t', ?_, ht'⟩
  -- Every index the loop body uses is in bounds.
  have hsized := ht.sized
  have eSemi : index t.semi (w + 1) = .ok (sdom E (w + 1)) := by
    rw [← hsemi]
    exact index_of_lt (by rw [hsized.semi]; omega) 0
  have eBucket : index t.bucket (sdom E (w + 1)) = .ok (t.bucketOf (sdom E (w + 1))) :=
    index_of_lt (by rw [hsized.bucket]; omega) []
  have eParent : index t.parent (w + 1) = .ok (parent (w + 1)) := by
    obtain ⟨A, L, S, hrest⟩ := ht.rest
    rw [hrest, ← hparent, ← hs.parent_eq]
  have eFull : index (t.bucket.set (sdom E (w + 1)) (t.bucketOf (sdom E (w + 1)) ++ [w + 1]))
      (parent (w + 1)) = .ok ((t.bucket.set (sdom E (w + 1))
        (t.bucketOf (sdom E (w + 1)) ++ [w + 1])).getD (parent (w + 1)) []) :=
    index_of_lt (by rw [List.length_set, hsized.bucket]; omega) []
  have hlink : (link (parent (w + 1)) (w + 1)).run { t with
      bucket := t.bucket.set (sdom E (w + 1)) (t.bucketOf (sdom E (w + 1)) ++ [w + 1]) } =
      (.ok (), { t with
        bucket := t.bucket.set (sdom E (w + 1)) (t.bucketOf (sdom E (w + 1)) ++ [w + 1])
        ancestor := t.ancestor.set (w + 1) (parent (w + 1)) }) := by
    simp only [link, Method.run_bind_get, Method.run_bind_liftM_ok,
      setIndex_of_lt (show w + 1 < t.ancestor.length by rw [hsized.ancestor]; omega)]
    rfl
  rw [processVertex, Method.run_bind_get, hs.pred_eq]
  simp only [hpred, Method.run_bind_liftM_ok]
  rw [Method.run_bind_of_ok hlower]
  simp only [Method.run_bind_get, eSemi, eBucket, Method.run_bind_liftM_ok,
    setIndex_of_lt (show sdom E (w + 1) < t.bucket.length by rw [hsized.bucket]; omega),
    Method.run_bind_modify, eParent]
  rw [Method.run_bind_of_ok hlink]
  simp only [Method.run_bind_get, eFull, Method.run_bind_liftM_ok, Method.run_bind_modify,
    setIndex_of_lt (show parent (w + 1) < (t.bucket.set (sdom E (w + 1))
      (t.bucketOf (sdom E (w + 1)) ++ [w + 1])).length by
        rw [List.length_set, hsized.bucket]; omega)]
  exact hdrain

end Dominator
end Jstd
