import Jstd.Dominator.Basic
import Jstd.Foundation.DepthFirst

/-!
# The path-compressed forest

While vertices are processed in decreasing order, those above the threshold `w` are linked into a
forest by `ancestor`, and `label` remembers a vertex with the least `semi` on the compressed part of
the tree path.  `eval` also compares with the label of the forest root, which is outside that part:
the root's own `semi` can win only while the root is the vertex being processed, and a label equal
to `ancestor` records that this has happened.
-/

namespace Jstd
namespace Dominator

open Foundation LtState

variable {N : Type}

namespace LtState

def semiOf (s : LtState N) (i : Nat) : Nat :=
  s.semi.getD i 0

def idomOf (s : LtState N) (i : Nat) : Nat :=
  s.idom.getD i 0

def ancestorOf (s : LtState N) (i : Nat) : Nat :=
  s.ancestor.getD i 0

def labelOf (s : LtState N) (i : Nat) : Nat :=
  s.label.getD i 0

def bucketOf (s : LtState N) (i : Nat) : List Nat :=
  s.bucket.getD i []

end LtState

/-- All vectors the passes write to have room for the numbers `0..n`. -/
structure Sized (n : Nat) (s : LtState N) : Prop where
  semi : s.semi.length = n + 1
  idom : s.idom.length = n + 1
  ancestor : s.ancestor.length = n + 1
  label : s.label.length = n + 1
  bucket : s.bucket.length = n + 1

/-- The entries `a` and `l` of `ancestor` and `label` for a vertex `v` above the threshold `w`. -/
structure Linked (parent : Nat → Nat) (w : Nat) (semi : Nat → Nat) (v a l : Nat) : Prop where
  ancestor_pos : 1 ≤ a
  ancestor_lt : a < v
  ancestor_anc : Anc parent a v
  /-- The compressed part of the tree path to `v` lies above the threshold. -/
  path_gt : ∀ {u : Nat}, a < u → Anc parent u v → w < u
  label_anc : Anc parent l v
  ancestor_le_label : a ≤ l
  label_root : l = a → w ≤ a
  label_min : ∀ {u : Nat}, a < u → Anc parent u v → semi l ≤ semi u

/-- The vertices above `w` are linked, those up to `w` are roots. -/
structure Forest (parent : Nat → Nat) (n w : Nat) (s : LtState N) : Prop where
  root : ∀ {v : Nat}, v ≤ w → s.ancestorOf v = 0
  root_label : ∀ {v : Nat}, 1 ≤ v → v ≤ w → s.labelOf v = v
  linked : ∀ {v : Nat}, w < v → v ≤ n →
    Linked parent w s.semiOf v (s.ancestorOf v) (s.labelOf v)

/-- What `semi` owes the fold of the forest root: vertices above `w` do not exceed their parents,
those below `w` still hold their own number. -/
structure SemiBounds (parent : Nat → Nat) (n w : Nat) (s : LtState N) : Prop where
  above : ∀ {u : Nat}, w < u → u ≤ n → s.semiOf u ≤ parent u
  below : ∀ {r : Nat}, 1 ≤ r → r < w → s.semiOf r = r

variable {E : Nat → Nat → Prop} {parent : Nat → Nat} {n w : Nat}

/-! ## One vertex -/

namespace Linked

variable {semi : Nat → Nat} {v a l : Nat}

/-- The path below `v`'s ancestor joined to the path below that ancestor's own. -/
theorem compress (D : DepthFirst E parent n) (hvn : v ≤ n) (hv : Linked parent w semi v a l)
    {r la l' : Nat} (ha : Linked parent w semi a r la) (hl' : l' = la ∨ l' = l)
    (hle : semi l' ≤ semi la) (hle' : semi l' ≤ semi l) : Linked parent w semi v r l' := by
  have hra := ha.ancestor_lt
  have hav := hv.ancestor_lt
  have hal := hv.ancestor_le_label
  have hrl := ha.ancestor_le_label
  constructor
  · exact ha.ancestor_pos
  · omega
  · exact ha.ancestor_anc.trans hv.ancestor_anc
  -- A vertex of the joined path is on the part below `a` or on `a`'s own.
  · intro u hu huv
    rcases Nat.lt_or_ge a u with h | h
    · exact hv.path_gt h huv
    · exact ha.path_gt hu (D.anc_of_le huv hv.ancestor_anc hvn h)
  · rcases hl' with rfl | rfl
    · exact ha.label_anc.trans hv.ancestor_anc
    · exact hv.label_anc
  · rcases hl' with rfl | rfl
    · exact hrl
    · omega
  · intro heq
    rcases hl' with rfl | rfl
    · exact ha.label_root heq
    · omega
  · intro u hu huv
    rcases Nat.lt_or_ge a u with h | h
    · exact Nat.le_trans hle' (hv.label_min h huv)
    · exact Nat.le_trans hle (ha.label_min hu (D.anc_of_le huv hv.ancestor_anc hvn h))

/-- The forest root takes over the label; it must be the vertex being processed. -/
theorem fold (hv : Linked parent w semi v a l) (hwa : w ≤ a) (hlt : semi a < semi l) :
    Linked parent w semi v a a where
  ancestor_pos := hv.ancestor_pos
  ancestor_lt := hv.ancestor_lt
  ancestor_anc := hv.ancestor_anc
  path_gt := hv.path_gt
  label_anc := hv.ancestor_anc
  ancestor_le_label := Nat.le_refl a
  label_root _ := hwa
  label_min hu huv := Nat.le_trans (Nat.le_of_lt hlt) (hv.label_min hu huv)

/-- A label names the vertex being processed or one above the threshold. -/
theorem le_label (hv : Linked parent w semi v a l) : w ≤ l := by
  rcases Nat.lt_or_eq_of_le hv.ancestor_le_label with hlt | heq
  · exact Nat.le_of_lt (hv.path_gt hlt hv.label_anc)
  · rw [← heq]
    exact hv.label_root heq.symm

/-- Lowering `semi` of the vertex being processed. -/
theorem lower (hv : Linked parent w semi v a l) {semi' : Nat → Nat}
    (hsame : ∀ x, x ≠ w → semi' x = semi x) (hle : semi' w ≤ semi w) :
    Linked parent w semi' v a l where
  ancestor_pos := hv.ancestor_pos
  ancestor_lt := hv.ancestor_lt
  ancestor_anc := hv.ancestor_anc
  path_gt := hv.path_gt
  label_anc := hv.label_anc
  ancestor_le_label := hv.ancestor_le_label
  label_root := hv.label_root
  label_min := by
    intro u hu huv
    have hwu := hv.path_gt hu huv
    have hmin := hv.label_min hu huv
    rw [hsame u (by omega)]
    by_cases hl : l = w
    · subst hl
      exact Nat.le_trans hle hmin
    · rw [hsame l hl]
      exact hmin

/-- The next vertex becomes the threshold. -/
theorem descend {w' : Nat} (hv : Linked parent w semi v a l) (hle : w' ≤ w) :
    Linked parent w' semi v a l where
  ancestor_pos := hv.ancestor_pos
  ancestor_lt := hv.ancestor_lt
  ancestor_anc := hv.ancestor_anc
  path_gt hu huv := Nat.lt_of_le_of_lt hle (hv.path_gt hu huv)
  label_anc := hv.label_anc
  ancestor_le_label := hv.ancestor_le_label
  label_root h := Nat.le_trans hle (hv.label_root h)
  label_min := hv.label_min

/-- A vertex just linked to its parent. -/
theorem link (semi : Nat → Nat) (D : DepthFirst E parent n) (hw : 2 ≤ w + 1) (hwn : w + 1 ≤ n) :
    Linked parent w semi (w + 1) (parent (w + 1)) (w + 1) := by
  have hlt := D.parent_lt hw hwn
  have honly : ∀ {u}, parent (w + 1) < u → Anc parent u (w + 1) → u = w + 1 := by
    intro u hu huw
    by_contra hne
    have hle := D.anc_le (huw.of_ne hne).2 (by omega)
    omega
  constructor
  · exact D.one_le_parent hw hwn
  · exact hlt
  · exact .step hw .refl
  · intro u hu huw
    have := honly hu huw
    omega
  · exact .refl
  · omega
  · intro heq
    omega
  · intro u hu huw
    rw [honly hu huw]

end Linked

/-! ## The whole forest -/

namespace Forest

variable {s t : LtState N}

/-- Only the entries of `v`, above the threshold, have changed. -/
theorem update (hF : Forest parent n w s) {v a l : Nat} (hwv : w < v)
    (hsemi : t.semi = s.semi) (hanc : ∀ x, t.ancestorOf x = if x = v then a else s.ancestorOf x)
    (hlab : ∀ x, t.labelOf x = if x = v then l else s.labelOf x)
    (hlinked : Linked parent w s.semiOf v a l) : Forest parent n w t := by
  have hsemi' : t.semiOf = s.semiOf := by
    funext x
    rw [semiOf, semiOf, hsemi]
  constructor
  · intro x hx
    rw [hanc, if_neg (by omega)]
    exact hF.root hx
  · intro x hx1 hx
    rw [hlab, if_neg (by omega)]
    exact hF.root_label hx1 hx
  · intro x hwx hxn
    rw [hanc, hlab, hsemi']
    by_cases hx : x = v
    · subst hx
      rw [if_pos rfl, if_pos rfl]
      exact hlinked
    · rw [if_neg hx, if_neg hx]
      exact hF.linked hwx hxn

theorem label_le (D : DepthFirst E parent n) (hF : Forest parent n w s) {v : Nat} (hv : 1 ≤ v)
    (hvn : v ≤ n) : s.labelOf v ≤ v := by
  rcases Nat.lt_or_ge w v with hlt | hge
  · exact D.anc_le (hF.linked hlt hvn).label_anc hvn
  · exact Nat.le_of_eq (hF.root_label hv hge)

/-- Above the threshold are exactly the vertices with an ancestor. -/
theorem ancestor_eq_zero_iff (hF : Forest parent n w s) {v : Nat} (hvn : v ≤ n) :
    s.ancestorOf v = 0 ↔ v ≤ w := by
  constructor
  · intro h
    by_contra hgt
    have := (hF.linked (v := v) (by omega) hvn).ancestor_pos
    omega
  · exact hF.root

end Forest

/-! ## compress and eval -/

theorem takeLabel_run {s : LtState N} (hs : Sized n s) {a v : Nat} (ha : a ≤ n) (hv : v ≤ n)
    (hla : s.labelOf a ≤ n) (hlv : s.labelOf v ≤ n) :
    ∃ L, (takeLabel a v).run s = (.ok (), { s with label := L }) ∧ L.length = n + 1 ∧
      (∀ x, x ≠ v → L.getD x 0 = s.labelOf x) ∧
      (L.getD v 0 = if s.semiOf (s.labelOf a) < s.semiOf (s.labelOf v) then s.labelOf a
        else s.labelOf v) := by
  have h2 : v < s.label.length := by rw [hs.label]; omega
  have e1 : index s.label a = .ok (s.labelOf a) := index_of_lt (by rw [hs.label]; omega) 0
  have e2 : index s.label v = .ok (s.labelOf v) := index_of_lt h2 0
  have e3 : index s.semi (s.labelOf a) = .ok (s.semiOf (s.labelOf a)) :=
    index_of_lt (by rw [hs.semi]; omega) 0
  have e4 : index s.semi (s.labelOf v) = .ok (s.semiOf (s.labelOf v)) :=
    index_of_lt (by rw [hs.semi]; omega) 0
  simp only [takeLabel, Method.run_bind_get, e1, e2, e3, e4, Method.run_bind_liftM_ok]
  -- `label[v]` changes only where `a` has a label with a smaller semidominator.
  by_cases hlt : s.semiOf (s.labelOf a) < s.semiOf (s.labelOf v)
  · refine ⟨s.label.set v (s.labelOf a), ?_, by rw [List.length_set, hs.label], ?_, ?_⟩
    · rw [if_pos hlt, setIndex_of_lt h2]
      rfl
    · intro x hx
      rw [getD_set, if_neg (by rintro ⟨h, -⟩; exact hx h.symm)]
      rfl
    · rw [getD_set, if_pos ⟨rfl, h2⟩, if_pos hlt]
  · refine ⟨s.label, by rw [if_neg hlt]; rfl, hs.label, fun _ _ => rfl, ?_⟩
    rw [if_neg hlt]
    rfl

/-- Compression makes the forest root the ancestor of `v`, and leaves what is above `v` alone. -/
theorem compress_spec (D : DepthFirst E parent n) (fuel : Nat) :
    ∀ {s : LtState N} {v : Nat}, Sized n s → Forest parent n w s → w < v → v ≤ n → v ≤ fuel →
      ∃ A L, (compress fuel v).run s = (.ok (), { s with ancestor := A, label := L }) ∧
        Sized n { s with ancestor := A, label := L } ∧
        Forest parent n w { s with ancestor := A, label := L } ∧ A.getD v 0 ≤ w ∧
        ∀ x, v < x → A.getD x 0 = s.ancestorOf x ∧ L.getD x 0 = s.labelOf x := by
  induction fuel with
  | zero =>
      intro s v _ _ hwv _ hfuel
      omega
  | succ fuel ih =>
      intro s v hs hF hwv hvn hfuel
      have hv := hF.linked hwv hvn
      have hav := hv.ancestor_lt
      have ha0 := hv.ancestor_pos
      have eA : index s.ancestor v = .ok (s.ancestorOf v) :=
        index_of_lt (by rw [hs.ancestor]; omega) 0
      have eAA : index s.ancestor (s.ancestorOf v) = .ok (s.ancestorOf (s.ancestorOf v)) :=
        index_of_lt (by rw [hs.ancestor]; omega) 0
      simp only [compress, Method.run_bind_get, eA, eAA, Method.run_bind_liftM_ok,
        if_neg (Nat.ne_of_gt ha0)]
      -- Where the ancestor is a root there is nothing to compress.
      by_cases hwa : s.ancestorOf v ≤ w
      · refine ⟨s.ancestor, s.label, ?_, hs, hF, hwa, fun x _ => ⟨rfl, rfl⟩⟩
        rw [if_pos (hF.root hwa)]
        rfl
      · rw [if_neg (mt (hF.ancestor_eq_zero_iff (by omega)).1 hwa)]
        obtain ⟨A, L, hrun, hs₁, hF₁, hroot, hsame⟩ :=
          ih (v := s.ancestorOf v) hs hF (by omega) (by omega) (by omega)
        let s₁ : LtState N := { s with ancestor := A, label := L }
        have hvA : s₁.ancestorOf v = s.ancestorOf v := (hsame v hav).1
        have hv₁ : Linked parent w s₁.semiOf v (s.ancestorOf v) (s₁.labelOf v) := by
          rw [← hvA]
          exact hF₁.linked hwv hvn
        -- The path above is compressed by now: one more step reaches the root.
        have ha₁ := hF₁.linked (v := s.ancestorOf v) (by omega) (by omega)
        obtain ⟨L', hrun', hlen', hother, htaken⟩ := takeLabel_run hs₁ (a := s.ancestorOf v)
          (v := v) (by omega) hvn
          (Nat.le_trans (hF₁.label_le D ha0 (by omega)) (by omega))
          (Nat.le_trans (hF₁.label_le D (by omega) hvn) hvn)
        have hlen : A.length = n + 1 := hs₁.ancestor
        have eR : index A (s.ancestorOf v) = .ok (s₁.ancestorOf (s.ancestorOf v)) :=
          index_of_lt (by rw [hlen]; omega) 0
        refine ⟨A.set v (s₁.ancestorOf (s.ancestorOf v)), L', ?_, ?_, ?_, ?_, ?_⟩
        · rw [Method.run_bind_of_ok hrun, Method.run_bind_of_ok hrun']
          simp only [Method.run_bind_get, eR, Method.run_bind_liftM_ok,
            setIndex_of_lt (show v < A.length by rw [hlen]; omega)]
          rfl
        · exact { hs₁ with ancestor := by rw [List.length_set, hlen], label := hlen' }
        · refine hF₁.update (v := v) (a := s₁.ancestorOf (s.ancestorOf v)) (l := L'.getD v 0) hwv
            rfl ?_ ?_ (hv₁.compress D hvn ha₁ ?_ ?_ ?_)
          · intro x
            rw [ancestorOf, getD_set]
            by_cases hx : x = v
            · rw [if_pos ⟨hx.symm, by rw [hlen]; omega⟩, if_pos hx]
            · rw [if_neg (by rintro ⟨h, -⟩; exact hx h.symm), if_neg hx]
              rfl
          · intro x
            by_cases hx : x = v
            · rw [if_pos hx, hx]
              rfl
            · rw [if_neg hx]
              exact hother x hx
          · rw [htaken]
            split
            · exact .inl rfl
            · exact .inr rfl
          · rw [htaken]
            split
            · exact Nat.le_refl _
            · exact Nat.not_lt.1 ‹_›
          · rw [htaken]
            split
            · exact Nat.le_of_lt ‹_›
            · exact Nat.le_refl _
        · rw [getD_set, if_pos ⟨rfl, by rw [hlen]; omega⟩]
          exact hroot
        · intro x hx
          refine ⟨?_, ?_⟩
          · rw [getD_set, if_neg (by omega)]
            exact (hsame x (by omega)).1
          · rw [hother x (by omega)]
            exact (hsame x (by omega)).2

/-- `eval` returns a vertex with the least `semi` among the linked ancestors of `v`, or the vertex
being processed when that is less still; it rearranges the forest and nothing else. -/
theorem eval_spec (D : DepthFirst E parent n) {s : LtState N} (hs : Sized n s)
    (hF : Forest parent n w s) (hsemi : SemiBounds parent n w s) {fuel v : Nat} (hv : 1 ≤ v)
    (hvn : v ≤ n) (hfuel : v ≤ fuel) :
    ∃ A L u, (eval fuel v).run s = (.ok u, { s with ancestor := A, label := L }) ∧
      Sized n { s with ancestor := A, label := L } ∧
      Forest parent n w { s with ancestor := A, label := L } ∧
      (v ≤ w → u = v) ∧
      (w < v → Anc parent u v ∧ w ≤ u ∧
        ∀ x, w < x → Anc parent x v → s.semiOf u ≤ s.semiOf x) := by
  have eA : index s.ancestor v = .ok (s.ancestorOf v) :=
    index_of_lt (by rw [hs.ancestor]; omega) 0
  simp only [eval, Method.run_bind_get, eA, Method.run_bind_liftM_ok]
  by_cases hvw : v ≤ w
  · have eL : index s.label v = .ok (s.labelOf v) := index_of_lt (by rw [hs.label]; omega) 0
    refine ⟨s.ancestor, s.label, v, ?_, hs, hF, fun _ => rfl, fun h => by omega⟩
    rw [if_pos (hF.root hvw)]
    simp only [eL, hF.root_label hv hvw]
    rfl
  · rw [if_neg (mt (hF.ancestor_eq_zero_iff hvn).1 hvw)]
    obtain ⟨A, L, hrun, hs₁, hF₁, hroot, -⟩ :=
      compress_spec D fuel hs hF (Nat.not_le.1 hvw) hvn hfuel
    let s₁ : LtState N := { s with ancestor := A, label := L }
    have hv₁ : Linked parent w s.semiOf v (s₁.ancestorOf v) (s₁.labelOf v) :=
      hF₁.linked (by omega) hvn
    have hav := hv₁.ancestor_lt
    have ha1 := hv₁.ancestor_pos
    have haw : s₁.ancestorOf v ≤ w := hroot
    have hla : s₁.labelOf (s₁.ancestorOf v) = s₁.ancestorOf v := hF₁.root_label ha1 haw
    obtain ⟨L', hrun', hlen', hother, htaken⟩ := takeLabel_run hs₁ (a := s₁.ancestorOf v)
      (v := v) (by omega) hvn (by rw [hla]; omega)
      (Nat.le_trans (hF₁.label_le D (by omega) hvn) hvn)
    rw [hla] at htaken
    -- A root below the vertex being processed never wins: its child on the path is as good.
    have hfold : s.semiOf (s₁.ancestorOf v) < s.semiOf (s₁.labelOf v) → w ≤ s₁.ancestorOf v := by
      intro hlt
      by_contra hne
      obtain ⟨c, hc2, hca, hcv⟩ := hv₁.ancestor_anc.exists_child (by omega)
      have hcv' := D.anc_le hcv hvn
      have hac := D.parent_lt hc2 (by omega)
      have hmin := hv₁.label_min (u := c) (by omega) hcv
      have habove := hsemi.above (u := c) (hv₁.path_gt (by omega) hcv) (by omega)
      have hbelow := hsemi.below ha1 (Nat.not_le.1 hne)
      omega
    have hlinked : Linked parent w s.semiOf v (s₁.ancestorOf v) (L'.getD v 0) := by
      rw [htaken]
      split
      · rename_i hlt
        exact hv₁.fold (hfold hlt) hlt
      · exact hv₁
    have eA' : index A v = .ok (s₁.ancestorOf v) :=
      index_of_lt (by have := hs₁.ancestor; simp only at this; omega) 0
    have eL' : index L' v = .ok (L'.getD v 0) := index_of_lt (by omega) 0
    refine ⟨A, L', L'.getD v 0, ?_, { hs₁ with label := hlen' }, ?_, fun h => by omega, fun _ => ?_⟩
    · rw [Method.run_bind_of_ok hrun]
      simp only [Method.run_bind_get, eA', Method.run_bind_liftM_ok, if_neg (Nat.ne_of_gt ha1)]
      rw [Method.run_bind_of_ok hrun']
      simp only [Method.run_bind_get, eL']
      rfl
    · refine hF₁.update (v := v) (by omega) rfl ?_ ?_ hlinked
      · intro x
        by_cases hx : x = v
        · rw [if_pos hx, hx]
          rfl
        · rw [if_neg hx]
          rfl
      · intro x
        by_cases hx : x = v
        · rw [if_pos hx, hx]
          rfl
        · rw [if_neg hx]
          exact hother x hx
    · exact ⟨hlinked.label_anc, hlinked.le_label, fun x hx hxv => hlinked.label_min (by omega) hxv⟩

end Dominator
end Jstd
