import Mathlib.Data.List.GetD
import Jstd.Dominator.Basic
import Jstd.Foundation.DepthFirst

/-!
# dfs builds a preorder numbering with complete predecessor lists

`Numbered` is the invariant of the state at every moment of the search; `Explored` says what a call
entered with `k` vertices numbered has added so far.  The call for one node and the loop over its
successors share the two, so that one induction on the depth of the recursion carries both.
-/

namespace Jstd
namespace Dominator

open Foundation LtState

variable {N : Type} [DecidableEq N]

namespace LtState

def parentOf (s : LtState N) (i : Nat) : Nat :=
  s.parent.getD i 0

def predOf (s : LtState N) (i : Nat) : List Nat :=
  s.pred.getD i []

/-- `t` keeps all numbers of `s`. -/
def Extends (s t : LtState N) : Prop :=
  s.vertex <+: t.vertex ∧ s.parent <+: t.parent

end LtState

/-! ## The invariant -/

/-- A partial numbering of the nodes of `nodeSet`, the algorithm not yet begun. -/
structure Numbered (g : Cfg N) (nodeSet : Finset N) (s : LtState N) : Prop where
  vertex_zero : s.vertex[0]? = some none
  vertex_some : ∀ {i : Nat}, 1 ≤ i → i < s.vertex.length → ∃ v, s.vertex[i]? = some (some v)
  parent_length : s.parent.length = s.vertex.length
  pred_length : s.pred.length = s.vertex.length
  semi_eq : s.semi = List.range s.vertex.length
  label_eq : s.label = List.range s.vertex.length
  idom_eq : s.idom = List.replicate s.vertex.length 0
  ancestor_eq : s.ancestor = List.replicate s.vertex.length 0
  bucket_eq : s.bucket = List.replicate s.vertex.length []
  number_iff : ∀ (v : N) (i : Nat), s.number.get? v = some i ↔ s.vertex[i]? = some (some v)
  mem_set : ∀ {v : N} {i : Nat}, s.number.get? v = some i → v ∈ nodeSet
  pred_bounds : ∀ {i j : Nat}, i ∈ s.predOf j → 1 ≤ i ∧ i < s.vertex.length
  parent_lt : ∀ {i : Nat}, 2 ≤ i → i < s.vertex.length → s.parentOf i < i
  parent_edge : ∀ {i : Nat} {v : N}, 2 ≤ i → s.vertex[i]? = some (some v) →
    ∃ u, s.vertex[s.parentOf i]? = some (some u) ∧ g.Edge u v
  parent_prev : ∀ {i : Nat}, 2 ≤ i → i < s.vertex.length →
    Anc s.parentOf (s.parentOf i) (i - 1)

theorem new_numbered (g : Cfg N) (nodeSet : Finset N) : Numbered g nodeSet LtState.new where
  vertex_zero := rfl
  vertex_some := by
    intro i hi hlt
    simp [LtState.new] at hlt
    omega
  parent_length := rfl
  pred_length := rfl
  semi_eq := rfl
  label_eq := rfl
  idom_eq := rfl
  ancestor_eq := rfl
  bucket_eq := rfl
  number_iff := by
    intro v i
    cases i with
    | zero => simp [LtState.new]
    | succ i => simp [LtState.new]
  mem_set := by
    intro v i h
    simp [LtState.new] at h
  pred_bounds := by
    intro i j h
    cases j with
    | zero => simp [LtState.new, predOf] at h
    | succ j => simp [LtState.new, predOf] at h
  parent_lt := by
    intro i hi hlt
    simp [LtState.new] at hlt
    omega
  parent_edge := by
    intro i v hi hv
    rw [LtState.new, List.getElem?_eq_none (by simp; omega)] at hv
    cases hv
  parent_prev := by
    intro i hi hlt
    simp [LtState.new] at hlt
    omega

namespace LtState.Extends

omit [DecidableEq N]

variable {s t u : LtState N}

theorem refl (s : LtState N) : s.Extends s :=
  ⟨List.prefix_refl _, List.prefix_refl _⟩

theorem trans (h : s.Extends t) (h' : t.Extends u) : s.Extends u :=
  ⟨h.1.trans h'.1, h.2.trans h'.2⟩

theorem length_le (h : s.Extends t) : s.vertex.length ≤ t.vertex.length :=
  h.1.length_le

theorem vertex_eq (h : s.Extends t) {i : Nat} (hi : i < s.vertex.length) :
    t.vertex[i]? = s.vertex[i]? := by
  obtain ⟨rest, hrest⟩ := h.1
  rw [← hrest, List.getElem?_append_left hi]

theorem parentOf_eq (h : s.Extends t) {i : Nat} (hi : i < s.parent.length) :
    t.parentOf i = s.parentOf i := by
  obtain ⟨rest, hrest⟩ := h.2
  rw [parentOf, parentOf, ← hrest, List.getD_append _ _ _ _ hi]

end LtState.Extends

variable {g : Cfg N} {nodeSet : Finset N}

theorem Numbered.number_lt {s : LtState N} (hs : Numbered g nodeSet s) {v : N} {i : Nat}
    (h : s.number.get? v = some i) : 1 ≤ i ∧ i < s.vertex.length := by
  have hv := (hs.number_iff v i).1 h
  refine ⟨?_, (List.getElem?_eq_some_iff.1 hv).1⟩
  rcases Nat.eq_zero_or_pos i with rfl | hi
  · rw [hs.vertex_zero] at hv
    cases hv
  · exact hi

theorem Numbered.number_mono {s t : LtState N} (hs : Numbered g nodeSet s)
    (ht : Numbered g nodeSet t) (h : s.Extends t) {v : N} {i : Nat}
    (hv : s.number.get? v = some i) : t.number.get? v = some i := by
  rw [ht.number_iff, h.vertex_eq (hs.number_lt hv).2]
  exact (hs.number_iff v i).1 hv

/-- Tree ancestry between old numbers does not change. -/
theorem Numbered.anc_mono {s t : LtState N} (hs : Numbered g nodeSet s) (h : s.Extends t)
    {u v : Nat} (hanc : Anc s.parentOf u v) (hv : v < s.vertex.length) :
    Anc t.parentOf u v := by
  induction hanc with
  | refl => exact .refl
  | step hv2 _ ih =>
      have hlt := hs.parent_lt hv2 hv
      refine .step hv2 ?_
      rw [h.parentOf_eq (by rw [hs.parent_length]; exact hv)]
      exact ih (by omega)

/-- Every successor of vertex `x` has a number, and larger ones are in the subtree of `x`. -/
def Finished (g : Cfg N) (nodeSet : Finset N) (t : LtState N) (x : Nat) : Prop :=
  ∀ u, t.vertex[x]? = some (some u) → ∀ v, g.Edge u v → v ∈ nodeSet →
    ∃ j, t.number.get? v = some j ∧ (x < j → Anc t.parentOf x j)

theorem Finished.mono {s t : LtState N} (hs : Numbered g nodeSet s) (ht : Numbered g nodeSet t)
    (h : s.Extends t) {x : Nat} (hx : x < s.vertex.length) (hfin : Finished g nodeSet s x) :
    Finished g nodeSet t x := by
  intro u hu v huv hv
  rw [h.vertex_eq hx] at hu
  obtain ⟨j, hj, hanc⟩ := hfin u hu v huv hv
  exact ⟨j, hs.number_mono ht h hj,
    fun hlt => hs.anc_mono h (hanc hlt) (hs.number_lt hj).2⟩

/-- How often the successor list of vertex `i` names `v`. -/
def edgeCount (g : Cfg N) (t : LtState N) (i : Nat) (v : N) : Nat :=
  match t.vertex[i]? with
  | some (some u) => (g.successors u).count v
  | _ => 0

theorem edgeCount_mono {s t : LtState N} (h : s.Extends t) {i : Nat} (hi : i < s.vertex.length)
    (v : N) : edgeCount g t i v = edgeCount g s i v := by
  rw [edgeCount, edgeCount, h.vertex_eq hi]

/-- What the call for the vertex `k`, entered in the state `s`, has added to it once the
successors `done` have been dealt with. -/
structure Explored (g : Cfg N) (nodeSet : Finset N) (s t : LtState N) (k : Nat) (done : List N) :
    Prop where
  numbered : Numbered g nodeSet t
  extension : s.Extends t
  entered : k < t.vertex.length
  subtree : ∀ x, k ≤ x → x < t.vertex.length → Anc t.parentOf k x
  finished : ∀ x, k < x → x < t.vertex.length → Finished g nodeSet t x
  reached : ∀ v ∈ done, v ∈ nodeSet → ∃ j, t.number.get? v = some j
  preds_self : ∀ {v : N} {j : Nat}, t.number.get? v = some j →
    (t.predOf j).count k = done.count v
  preds_new : ∀ {v : N} {j : Nat}, t.number.get? v = some j → ∀ i, k < i →
    i < t.vertex.length → (t.predOf j).count i = edgeCount g t i v
  preds_old : ∀ {v : N} {j : Nat}, t.number.get? v = some j → ∀ i < k,
    (t.predOf j).count i = (s.predOf j).count i

/-! ## The primitives -/

/-- The state after `push_vertex`. -/
theorem pushVertex_spec {s : LtState N} (hs : Numbered g nodeSet s) {node : N} {p : Nat}
    (hnew : s.number.get? node = none) (hnode : node ∈ nodeSet)
    (hp : s.vertex.length = 1 ∨ ∃ u, s.vertex[p]? = some (some u) ∧ g.Edge u node ∧
      Anc s.parentOf p (s.vertex.length - 1)) :
    ∃ t, (pushVertex node p).run s = (.ok s.vertex.length, t) ∧
      Explored g nodeSet s t s.vertex.length [] ∧
      t.vertex[s.vertex.length]? = some (some node) ∧ t.parentOf s.vertex.length = p ∧
      t.vertex.length = s.vertex.length + 1 := by
  have hpos : 0 < s.vertex.length := (List.getElem?_eq_some_iff.1 hs.vertex_zero).1
  let t : LtState N :=
    { number := s.number.insert node s.vertex.length
      vertex := s.vertex ++ [some node]
      parent := s.parent ++ [p]
      semi := s.semi ++ [s.vertex.length]
      idom := s.idom ++ [0]
      ancestor := s.ancestor ++ [0]
      label := s.label ++ [s.vertex.length]
      bucket := s.bucket ++ [[]]
      pred := s.pred ++ [[]] }
  have hext : s.Extends t := ⟨List.prefix_append _ _, List.prefix_append _ _⟩
  have hlen : t.vertex.length = s.vertex.length + 1 := by simp [t]
  have hlast : t.vertex[s.vertex.length]? = some (some node) := by simp [t]
  have hparent : t.parentOf s.vertex.length = p := by simp [t, parentOf, ← hs.parent_length]
  have hold : ∀ {i}, i < s.vertex.length → t.parentOf i = s.parentOf i := by
    intro i hi
    exact hext.parentOf_eq (by rw [hs.parent_length]; exact hi)
  have hpred : ∀ j, t.predOf j = s.predOf j := by
    intro j
    simp only [t, predOf, List.getD_eq_getElem?_getD, List.getElem?_append]
    split
    · rfl
    · rename_i hj
      rw [List.getElem?_eq_none (Nat.not_lt.1 hj)]
      cases j - s.pred.length with
      | zero => rfl
      | succ m => rfl
  have hnumber : ∀ v i, t.number.get? v = some i ↔ t.vertex[i]? = some (some v) := by
    intro v i
    rw [HashMap.get?_insert]
    -- The numbers in use are those below the new one.
    rcases Nat.lt_trichotomy i s.vertex.length with hi | rfl | hi
    · rw [hext.vertex_eq hi, ← hs.number_iff]
      split
      · rename_i heq
        rw [heq, hnew]
        simp
        omega
      · rfl
    · rw [hlast]
      split
      · rename_i heq
        simp [heq]
      · rename_i hne
        simp only [Option.some.injEq]
        constructor
        · intro h
          have := (hs.number_lt h).2
          omega
        · intro h
          exact absurd h.symm hne
    · rw [List.getElem?_eq_none (by omega)]
      split
      · simp
        omega
      · simp only [reduceCtorEq, iff_false]
        intro h
        have := (hs.number_lt h).2
        omega
  refine ⟨t, rfl, ?_, hlast, hparent, hlen⟩
  -- Everything about the old numbers is read off `s`, everything about the new one off `hp`.
  have hnumbered : Numbered g nodeSet t := by
    constructor
    · rw [hext.vertex_eq hpos, hs.vertex_zero]
    · intro i hi hlt
      rcases Nat.lt_or_eq_of_le (Nat.le_of_lt_succ (hlen ▸ hlt)) with hi' | rfl
      · rw [hext.vertex_eq hi']
        exact hs.vertex_some hi hi'
      · exact ⟨node, hlast⟩
    · simp [t, hs.parent_length]
    · simp [t, hs.pred_length]
    · rw [hlen, List.range_succ, ← hs.semi_eq]
    · rw [hlen, List.range_succ, ← hs.label_eq]
    · rw [hlen, List.replicate_succ', ← hs.idom_eq]
    · rw [hlen, List.replicate_succ', ← hs.ancestor_eq]
    · rw [hlen, List.replicate_succ', ← hs.bucket_eq]
    · exact hnumber
    · intro v i h
      rw [HashMap.get?_insert] at h
      split at h
      · rename_i heq
        rw [heq]
        exact hnode
      · exact hs.mem_set h
    · intro i j h
      rw [hpred] at h
      have := hs.pred_bounds h
      omega
    · intro i hi hlt
      rcases Nat.lt_or_eq_of_le (Nat.le_of_lt_succ (hlen ▸ hlt)) with hi' | rfl
      · rw [hold hi']
        exact hs.parent_lt hi hi'
      · rw [hparent]
        rcases hp with hone | ⟨u, hu, -, -⟩
        · omega
        · exact (List.getElem?_eq_some_iff.1 hu).1
    · intro i v hi hv
      have hlt := (List.getElem?_eq_some_iff.1 hv).1
      rcases Nat.lt_or_eq_of_le (Nat.le_of_lt_succ (hlen ▸ hlt)) with hi' | rfl
      · rw [hext.vertex_eq hi'] at hv
        obtain ⟨u, hu, huv⟩ := hs.parent_edge hi hv
        have := hs.parent_lt hi hi'
        exact ⟨u, by rw [hold hi', hext.vertex_eq (by omega), hu], huv⟩
      · rw [hlast] at hv
        obtain rfl : node = v := by simpa using hv
        rcases hp with hone | ⟨u, hu, huv, -⟩
        · omega
        · have := (List.getElem?_eq_some_iff.1 hu).1
          exact ⟨u, by rw [hparent, hext.vertex_eq this, hu], huv⟩
    · intro i hi hlt
      rcases Nat.lt_or_eq_of_le (Nat.le_of_lt_succ (hlen ▸ hlt)) with hi' | rfl
      · rw [hold hi']
        exact hs.anc_mono hext (hs.parent_prev hi hi') (by omega)
      · rw [hparent]
        rcases hp with hone | ⟨u, -, -, hanc⟩
        · omega
        · exact hs.anc_mono hext hanc (by omega)
  exact
    { numbered := hnumbered
      extension := hext
      entered := by omega
      subtree := by
        intro x hx hlt
        obtain rfl : x = s.vertex.length := by omega
        exact .refl
      finished := by
        intro x hx hlt
        omega
      reached := by
        intro v hv
        cases hv
      preds_self := by
        intro v j _
        rw [hpred, List.count_nil, List.count_eq_zero]
        intro hmem
        have := hs.pred_bounds hmem
        omega
      preds_new := by
        intro v j _ i hi hlt
        omega
      preds_old := by
        intro v j _ i _
        rw [hpred] }

theorem Numbered.predOf_eq_nil {s : LtState N} (hs : Numbered g nodeSet s) {j : Nat}
    (hj : s.vertex.length ≤ j) : s.predOf j = [] := by
  rw [← hs.pred_length] at hj
  exact List.getD_eq_default _ _ hj

namespace Explored

variable {s t t' : LtState N} {k : Nat} {done : List N} {v : N}

/-- A successor outside the node set changes nothing. -/
theorem skip (h : Explored g nodeSet s t k done) (hv : v ∉ nodeSet) :
    Explored g nodeSet s t k (done ++ [v]) where
  numbered := h.numbered
  extension := h.extension
  entered := h.entered
  subtree := h.subtree
  finished := h.finished
  reached w hw hmem := by
    rcases List.mem_append.1 hw with hw | hw
    · exact h.reached w hw hmem
    · obtain rfl := List.mem_singleton.1 hw
      exact absurd hmem hv
  preds_self := by
    intro w j hw
    have hne : v ≠ w := by
      rintro rfl
      exact hv (h.numbered.mem_set hw)
    rw [h.preds_self hw, List.count_append, List.count_singleton]
    simp [hne]
  preds_new := h.preds_new
  preds_old := h.preds_old

/-- The call for a successor that had no number. -/
theorem descend (h : Explored g nodeSet s t k done) (hs : Numbered g nodeSet s) (hk1 : 1 ≤ k)
    {succs : List N} (hcall : Explored g nodeSet t t' t.vertex.length succs)
    (hsuccs : ∀ w, succs.count w = edgeCount g t' t.vertex.length w)
    (hfin : Finished g nodeSet t' t.vertex.length) (hparent : t'.parentOf t.vertex.length = k) :
    Explored g nodeSet s t' k done := by
  have hle := hcall.extension.length_le
  have hentered := h.entered
  have hbefore : ∀ {w j}, t'.number.get? w = some j → j < t.vertex.length →
      t.number.get? w = some j := by
    intro w j hw hj
    rw [h.numbered.number_iff, ← hcall.extension.vertex_eq hj, ← hcall.numbered.number_iff]
    exact hw
  -- A node numbered in this call had no number when the earlier successors were recorded.
  have hfresh : ∀ {w j}, t'.number.get? w = some j → t.vertex.length ≤ j →
      t.number.get? w = none := by
    intro w j hw hj
    cases hw' : t.number.get? w with
    | none => rfl
    | some j' =>
        have hlt := (h.numbered.number_lt hw').2
        have := h.numbered.number_mono hcall.numbered hcall.extension hw'
        rw [hw, Option.some.injEq] at this
        omega
  constructor
  · exact hcall.numbered
  · exact h.extension.trans hcall.extension
  · omega
  · intro x hx hlt
    rcases Nat.lt_or_ge x t.vertex.length with hold | hnew
    · exact h.numbered.anc_mono hcall.extension (h.subtree x hx hold) hold
    · have hstep : Anc t'.parentOf k t.vertex.length :=
        .step (by omega) (by rw [hparent]; exact .refl)
      exact hstep.trans (hcall.subtree x hnew hlt)
  · intro x hx hlt
    rcases Nat.lt_trichotomy x t.vertex.length with hold | rfl | hnew
    · exact (h.finished x hx hold).mono h.numbered hcall.numbered hcall.extension hold
    · exact hfin
    · exact hcall.finished x hnew hlt
  · intro w hw hmem
    obtain ⟨j, hj⟩ := h.reached w hw hmem
    exact ⟨j, h.numbered.number_mono hcall.numbered hcall.extension hj⟩
  · intro w j hw
    rw [hcall.preds_old hw k hentered]
    rcases Nat.lt_or_ge j t.vertex.length with hj | hj
    · exact h.preds_self (hbefore hw hj)
    · rw [h.numbered.predOf_eq_nil hj, List.count_nil, eq_comm, List.count_eq_zero]
      intro hmem
      obtain ⟨j', hj'⟩ := h.reached w hmem (hcall.numbered.mem_set hw)
      rw [hfresh hw hj] at hj'
      cases hj'
  · intro w j hw i hki hlt
    rcases Nat.lt_trichotomy i t.vertex.length with hi | rfl | hi
    · rw [hcall.preds_old hw i hi, edgeCount_mono hcall.extension hi]
      rcases Nat.lt_or_ge j t.vertex.length with hj | hj
      · exact h.preds_new (hbefore hw hj) i hki hi
      · rw [h.numbered.predOf_eq_nil hj, List.count_nil, eq_comm, edgeCount]
        split
        · rename_i u hu
          rw [List.count_eq_zero]
          intro hmem
          obtain ⟨j', hj', -⟩ :=
            h.finished i hki hi u hu w hmem (hcall.numbered.mem_set hw)
          rw [hfresh hw hj] at hj'
          cases hj'
        · rfl
    · rw [hcall.preds_self hw, hsuccs]
    · exact hcall.preds_new hw i hi hlt
  · intro w j hw i hi
    rw [hcall.preds_old hw i (by omega)]
    rcases Nat.lt_or_ge j t.vertex.length with hj | hj
    · exact h.preds_old (hbefore hw hj) i hi
    · have := h.extension.length_le
      rw [h.numbered.predOf_eq_nil hj, hs.predOf_eq_nil (by omega)]

/-- Recording the edge to a numbered successor. -/
theorem record (h : Explored g nodeSet s t k done) (hk1 : 1 ≤ k) {j : Nat}
    (hv : t.number.get? v = some j) :
    ∃ t', (recordPred v k).run t = (.ok (), t') ∧ Explored g nodeSet s t' k (done ++ [v]) ∧
      t'.vertex = t.vertex ∧ t'.number = t.number ∧ t'.parent = t.parent := by
  have hn := h.numbered
  obtain ⟨hj1, hj⟩ := hn.number_lt hv
  have hjp : j < t.pred.length := by rw [hn.pred_length]; exact hj
  let t' : LtState N := { t with pred := t.pred.set j (t.predOf j ++ [k]) }
  have hpred : ∀ i, t'.predOf i = if j = i then t.predOf j ++ [k] else t.predOf i := by
    intro i
    simp only [t', predOf, getD_set, hjp, and_true]
  -- A node has one number, so the entry counts for `v` alone.
  have hcount : ∀ {w i}, t.number.get? w = some i → ∀ x, (t'.predOf i).count x =
      (t.predOf i).count x + if w = v ∧ x = k then 1 else 0 := by
    intro w i hw x
    rw [hpred]
    have hiff : j = i ↔ w = v := by
      constructor
      · rintro rfl
        have h1 := (hn.number_iff w j).1 hw
        rw [(hn.number_iff v j).1 hv] at h1
        simpa using h1.symm
      · rintro rfl
        rw [hv] at hw
        exact Option.some.inj hw
    by_cases hji : j = i
    · rw [if_pos hji, ← hji, List.count_append, List.count_singleton]
      by_cases hx : x = k
      · simp [hiff.1 hji, hx]
      · simp [hx, Ne.symm hx]
    · rw [if_neg hji, if_neg (by simp [mt hiff.2 hji]), Nat.add_zero]
  refine ⟨t', ?_, ?_, rfl, rfl, rfl⟩
  · simp only [recordPred, Method.run_bind_get, hv, index_of_lt hjp [], Method.run_bind_liftM_ok]
    rfl
  · exact
      { numbered :=
          { hn with
            pred_length := by rw [List.length_set, hn.pred_length]
            pred_bounds := by
              intro i x hx
              rw [hpred] at hx
              split at hx
              · rcases List.mem_append.1 hx with hx | hx
                · exact hn.pred_bounds hx
                · obtain rfl := List.mem_singleton.1 hx
                  exact ⟨hk1, h.entered⟩
              · exact hn.pred_bounds hx }
        extension := h.extension
        entered := h.entered
        subtree := h.subtree
        finished := h.finished
        reached := by
          intro w hw hmem
          rcases List.mem_append.1 hw with hw | hw
          · exact h.reached w hw hmem
          · obtain rfl := List.mem_singleton.1 hw
            exact ⟨j, hv⟩
        preds_self := by
          intro w i hw
          rw [hcount hw, h.preds_self hw, List.count_append, List.count_singleton]
          by_cases hx : w = v
          · simp [hx]
          · simp [hx, Ne.symm hx]
        preds_new := by
          intro w i hw x hx hlt
          rw [hcount hw, if_neg (by omega)]
          exact h.preds_new hw x hx hlt
        preds_old := by
          intro w i hw x hx
          rw [hcount hw, if_neg (by omega)]
          exact h.preds_old hw x hx }

end Explored

/-! ## The recursion -/

/-- The nodes still without a number. -/
def unnumbered (nodeSet : Finset N) (s : LtState N) : Finset N :=
  nodeSet.filter fun v => s.number.get? v = none

theorem unnumbered_mono {s t : LtState N} (hs : Numbered g nodeSet s)
    (ht : Numbered g nodeSet t) (h : s.Extends t) : unnumbered nodeSet t ⊆ unnumbered nodeSet s := by
  intro v hv
  obtain ⟨hmem, hnone⟩ := Finset.mem_filter.1 hv
  refine Finset.mem_filter.2 ⟨hmem, ?_⟩
  cases hv' : s.number.get? v with
  | none => rfl
  | some i =>
      rw [hs.number_mono ht h hv'] at hnone
      cases hnone

/-- The call for one node without a number: what it adds is a finished subtree. -/
theorem dfs_spec (fuel : Nat) :
    ∀ {s : LtState N} {node : N} {p : Nat}, Numbered g nodeSet s →
      s.number.get? node = none → node ∈ nodeSet →
      (s.vertex.length = 1 ∨ ∃ u, s.vertex[p]? = some (some u) ∧ g.Edge u node ∧
        Anc s.parentOf p (s.vertex.length - 1)) →
      (unnumbered nodeSet s).card ≤ fuel →
      ∃ t, (dfs g nodeSet fuel node p).run s = (.ok (), t) ∧
        Explored g nodeSet s t s.vertex.length (g.successors node) ∧
        Finished g nodeSet t s.vertex.length ∧
        t.vertex[s.vertex.length]? = some (some node) ∧ t.parentOf s.vertex.length = p := by
  induction fuel with
  | zero =>
      intro s node p _ hnew hnode _ hfuel
      have hmem : node ∈ unnumbered nodeSet s := Finset.mem_filter.2 ⟨hnode, hnew⟩
      have := Finset.card_pos.2 ⟨node, hmem⟩
      omega
  | succ fuel ih =>
      intro s node p hs hnew hnode hp hfuel
      have hpos : 0 < s.vertex.length := (List.getElem?_eq_some_iff.1 hs.vertex_zero).1
      obtain ⟨s₁, hpush, hexp, hvertex, hparent, hlen⟩ := pushVertex_spec hs hnew hnode hp
      -- The node leaves the set that bounds the fuel.
      have hcard : (unnumbered nodeSet s₁).card ≤ fuel := by
        have hsub := unnumbered_mono hs hexp.numbered hexp.extension
        have hnumber := (hexp.numbered.number_iff node _).2 hvertex
        have hssub : unnumbered nodeSet s₁ ⊂ unnumbered nodeSet s := by
          refine Finset.ssubset_iff_subset_ne.2 ⟨hsub, ?_⟩
          intro heq
          have hmem : node ∈ unnumbered nodeSet s := Finset.mem_filter.2 ⟨hnode, hnew⟩
          rw [← heq] at hmem
          rw [(Finset.mem_filter.1 hmem).2] at hnumber
          cases hnumber
        have := Finset.card_lt_card hssub
        omega
      -- The invariant of the loop over the successors: those done are numbered and recorded.
      obtain ⟨t, hloop, ht, htext⟩ := Method.forEach_induction
        (fun succ =>
          if succ ∉ nodeSet then pure ()
          else do
            let self ← get
            (if self.number.containsKey succ then pure ()
              else dfs g nodeSet fuel succ s.vertex.length)
            recordPred succ s.vertex.length)
        (fun done t => Explored g nodeSet s t s.vertex.length done ∧ s₁.Extends t)
        (g.successors node) (s := s₁) ⟨hexp, .refl s₁⟩ (by
          rintro done v rest t hsplit ⟨ht, htext⟩
          by_cases hv : v ∈ nodeSet
          · have hvt : t.vertex[s.vertex.length]? = some (some node) := by
              rw [htext.vertex_eq (by omega)]
              exact hvertex
            have hedge : g.Edge node v := by
              show v ∈ g.successors node
              rw [hsplit]
              simp
            simp only [hv, not_true_eq_false, if_false, Method.run_bind_get]
            cases hnum : t.number.get? v with
            | some j =>
                obtain ⟨t', hrun, ht', hvert', hnum', hpar'⟩ := ht.record hpos hnum
                refine ⟨t', ?_, ht', ?_⟩
                · simp only [HashMap.containsKey, hnum, Option.isSome_some, if_true,
                    Method.run_bind_pure]
                  exact hrun
                · exact htext.trans ⟨by rw [hvert'], by rw [hpar']⟩
            | none =>
                have hsub := unnumbered_mono hexp.numbered ht.numbered htext
                have hle := Finset.card_le_card hsub
                -- A call below this one: its subtree becomes a part of this node's.
                have hent := ht.entered
                obtain ⟨t₁, hrun₁, hcall, hfin, hvert₁, hpar₁⟩ := ih ht.numbered hnum hv
                  (.inr ⟨node, hvt, hedge, ht.subtree _ (by omega) (by omega)⟩) (by omega)
                have hsuccs : ∀ w, (g.successors v).count w =
                    edgeCount g t₁ t.vertex.length w := by
                  intro w
                  rw [edgeCount, hvert₁]
                have ht₁ := ht.descend hs hpos hcall hsuccs hfin hpar₁
                obtain ⟨t', hrun, ht', hvert', hnum', hpar'⟩ :=
                  ht₁.record hpos ((hcall.numbered.number_iff v _).2 hvert₁)
                refine ⟨t', ?_, ht', ?_⟩
                · simp only [HashMap.containsKey, hnum, Option.isSome_none, Bool.false_eq_true,
                    if_false]
                  rw [Method.run_bind_of_ok hrun₁]
                  exact hrun
                · exact (htext.trans hcall.extension).trans ⟨by rw [hvert'], by rw [hpar']⟩
          · exact ⟨t, by simp [hv], ht.skip hv, htext⟩)
      have hvt : t.vertex[s.vertex.length]? = some (some node) := by
        rw [htext.vertex_eq (by omega)]
        exact hvertex
      refine ⟨t, ?_, ht, ?_, hvt, ?_⟩
      · have hcond : ¬ (s.number.containsKey node = true ∨ node ∉ nodeSet) := by
          simp [HashMap.containsKey, hnew, hnode]
        rw [dfs, Method.run_bind_get]
        simp only [if_neg hcond]
        rw [Method.run_bind_of_ok hpush]
        exact hloop
      · intro u hu v huv hv
        rw [hvt] at hu
        obtain rfl : node = u := by simpa using hu
        obtain ⟨j, hj⟩ := ht.reached v huv hv
        refine ⟨j, hj, fun hlt => ?_⟩
        exact ht.subtree j (Nat.le_of_lt hlt) (ht.numbered.number_lt hj).2
      · rw [htext.parentOf_eq (by rw [hexp.numbered.parent_length]; omega)]
        exact hparent

end Dominator
end Jstd
