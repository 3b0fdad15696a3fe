import Jstd.Sese.DepthFirst

/-!
# The tree of a whole search

The proof rule of `visit`, applied to the invariant of the search: a call leaves the stack as it
found it, and everything numbered before as it was.  After the call for the root the numbers, ends
and parents form a depth-first tree of the edge list, and exactly the tree edges are marked.
-/

namespace Jstd
namespace Sese

open Foundation

variable {E : Type} {edges : List (IEdge E)} {n m root : Nat} {incident : List (List Nat)}

/-! ## What a call does -/

/-- `t` numbers `node` next, and keeps what `s` knows of the nodes numbered before. -/
structure Grows (s t : VisitState) (node : Nat) : Prop where
  extends_preorder : s.preorder ++ [node] <+: t.preorder
  parent_eq : ∀ v ∈ s.preorder ++ [node], t.parent.getD v none = s.parent.getD v none
  parentEdge_eq : ∀ v ∈ s.preorder ++ [node], t.parentEdge.getD v none = s.parentEdge.getD v none

/-- The search is about to enter `node`. -/
structure Ready (edges : List (IEdge E)) (incident : List (List Nat)) (s : VisitState)
    (stack : List Nat) (node : Nat) : Prop where
  searched : Searched edges incident s stack
  flagged : Flagged s stack
  entry : Entry edges incident s stack node

/-- It has entered `node` in the state `s`, and followed the edges `done`. -/
structure Following (edges : List (IEdge E)) (incident : List (List Nat)) (s : VisitState)
    (stack : List Nat) (node : Nat) (done : List Nat) (t : VisitState) : Prop where
  searched : Searched edges incident t (node :: stack)
  flagged : Flagged t (node :: stack)
  grows : Grows s t node
  followed : ∀ eid ∈ done, ∀ edge, edges[eid]? = some edge → other edge node ∈ t.preorder ∧
    (t.place node ≤ t.place (other edge node) ∨ other edge node ∈ stack)

/-- It has left `node`, whose tree edge is still to be marked. -/
structure Left (edges : List (IEdge E)) (incident : List (List Nat)) (s : VisitState)
    (stack : List Nat) (node : Nat) (t : VisitState) : Prop where
  searched : Searched edges incident t stack
  flagged : Flagged t (node :: stack)
  grows : Grows s t node

section

variable {s t : VisitState} {stack : List Nat} {node : Nat}

theorem Grows.mem {v : Nat} (h : Grows s t node) (hv : v ∈ s.preorder) : v ∈ t.preorder :=
  h.extends_preorder.subset (List.mem_append_left _ hv)

theorem Grows.node_mem (h : Grows s t node) : node ∈ t.preorder :=
  h.extends_preorder.subset (List.mem_append_right _ (List.mem_singleton.2 rfl))

theorem Grows.place_eq {v : Nat} (h : Grows s t node) (hv : v ∈ s.preorder) :
    t.place v = s.place v := by
  obtain ⟨rest, hrest⟩ := h.extends_preorder
  rw [VisitState.place, ← hrest, List.append_assoc, List.idxOf_append, if_pos hv]
  rfl

/-- What is new was numbered later. -/
theorem Grows.le_place {v : Nat} (h : Grows s t node) (hv : v ∉ s.preorder) :
    s.preorder.length ≤ t.place v := by
  obtain ⟨rest, hrest⟩ := h.extends_preorder
  rw [VisitState.place, ← hrest, List.append_assoc, List.idxOf_append, if_neg hv]
  exact Nat.le_add_left _ _

theorem Searched.flag (h : Searched edges incident s stack) (eid : Nat) :
    Searched edges incident (s.flag eid) stack :=
  ⟨h.nodup, h.number_eq, h.number_none, h.stack_mem, h.stack_sorted, h.closed, h.nested, h.first,
    fun v hv hpos => by
      obtain ⟨p, eid', hp⟩ := h.reached v hv hpos
      exact ⟨p, eid', hp.parent_eq, hp.parentEdge_eq, hp.joins, hp.mem, hp.lt, hp.inside, hp.max⟩,
    h.followed⟩

/-- An edge that is not followed leads to the parent, or to a node numbered before. -/
theorem Searched.skipped (h : Searched edges incident t (node :: stack))
    (hfiles : Files edges incident) {eid : Nat} {edge : IEdge E}
    (heid : eid ∈ incident.getD node []) (hedge : edges[eid]? = some edge)
    (hskip : t.parentEdge.getD node none = some eid ∨ t.number.getD (other edge node) ⊤ ≠ ⊤) :
    other edge node ∈ t.preorder ∧
      (t.place node ≤ t.place (other edge node) ∨ other edge node ∈ stack) := by
  have hnode : node ∈ t.preorder := h.stack_mem node List.mem_cons_self
  -- Whatever is above the topmost node is on the stack.
  have habove : ∀ u ∈ t.preorder, Inside t (node :: stack) u node → t.place u < t.place node →
      u ∈ stack := by
    intro u hu hin hlt
    rcases List.mem_cons.1 (h.mem_stack_of_inside hu List.mem_cons_self hin) with rfl | hmem
    · exact absurd hlt (Nat.lt_irrefl _)
    · exact hmem
  rcases hskip with hparent | hnumber
  · have hpos : 0 < t.place node := by
      refine Nat.pos_of_ne_zero fun hzero => ?_
      rw [(h.first node hnode hzero).2] at hparent
      cases hparent
    obtain ⟨p, eid', hp⟩ := h.reached node hnode hpos
    obtain rfl : eid' = eid := Option.some.inj (hp.parentEdge_eq.symm.trans hparent)
    obtain ⟨heid', edge', hedge', hother⟩ := hp.joins
    obtain rfl := Option.some.inj (hedge.symm.trans hedge')
    have hotherp : other edge node = p := by
      rw [← hother]
      exact (hfiles.other_mem heid' hedge).2
    rw [hotherp]
    exact ⟨hp.mem, .inr (habove p hp.mem hp.inside hp.lt)⟩
  · have hmem := h.number_ne_top.1 hnumber
    refine ⟨hmem, ?_⟩
    by_cases hle : t.place node ≤ t.place (other edge node)
    · exact .inl hle
    · refine .inr ?_
      by_contra hout
      have hlt := Nat.lt_of_not_le hle
      have hout' : other edge node ∉ node :: stack := by
        rw [List.mem_cons, not_or]
        refine ⟨?_, hout⟩
        intro heq
        rw [heq] at hlt
        exact Nat.lt_irrefl _ hlt
      obtain ⟨heid', hback⟩ := hfiles.other_mem heid hedge
      obtain ⟨-, hin⟩ := h.followed _ hmem hout' eid heid' edge hedge
      rw [hback] at hin
      rcases hin with hin | hin
      · exact hout (habove _ hmem hin hlt)
      · exact Nat.not_le_of_lt hlt hin.1

theorem Following.enter (hs : Visited n m s) (hnode : node < n)
    (hready : Ready edges incident s stack node) :
    Following edges incident s stack node [] (s.enter node) where
  searched := hready.searched.enter hs hnode hready.entry
  flagged := hready.flagged.enter hready.entry.fresh
  grows := ⟨List.prefix_refl _, fun _ _ => rfl, fun _ _ => rfl⟩
  followed := by
    intro eid heid
    cases heid

theorem Following.skip {done : List Nat} {eid : Nat} {edge : IEdge E}
    (h : Following edges incident s stack node done t) (hfiles : Files edges incident)
    (heid : eid ∈ incident.getD node []) (hedge : edges[eid]? = some edge)
    (hskip : t.parentEdge.getD node none = some eid ∨ t.number.getD (other edge node) ⊤ ≠ ⊤) :
    Following edges incident s stack node (done ++ [eid]) t :=
  { h with
    followed := by
      intro eid' heid' edge' hedge'
      rcases List.mem_append.1 heid' with heid' | heid'
      · exact h.followed eid' heid' edge' hedge'
      · obtain rfl := List.mem_singleton.1 heid'
        obtain rfl := Option.some.inj (hedge.symm.trans hedge')
        exact h.searched.skipped hfiles heid hedge hskip }

theorem Following.ready {done : List Nat} {eid : Nat} {edge : IEdge E}
    (h : Following edges incident s stack node done t) (ht : Visited n m t)
    (hother : other edge node < n) (heid : eid ∈ incident.getD node [])
    (hedge : edges[eid]? = some edge) (hfresh : other edge node ∉ t.preorder) :
    Ready edges incident (t.found node (other edge node) eid) (node :: stack) (other edge node) where
  searched := h.searched.found hfresh
  flagged := h.flagged.found hfresh
  entry :=
    { fresh := hfresh
      first := fun hnil => by
        have hmem : node ∈ t.preorder := h.grows.node_mem
        have hnil' : t.preorder = [] := hnil
        rw [hnil'] at hmem
        cases hmem
      later := fun _ => by
        refine ⟨node, stack, eid, edge, rfl, ?_, ?_, heid, hedge, rfl⟩
        · rw [VisitState.found, getD_set, if_pos ⟨rfl, by rw [ht.parent_length]; exact hother⟩]
        · rw [VisitState.found, getD_set,
            if_pos ⟨rfl, by rw [ht.parentEdge_length]; exact hother⟩] }

theorem Following.back {done : List Nat} {eid : Nat} {edge : IEdge E} {t' : VisitState}
    (h : Following edges incident s stack node done t) (ht : Visited n m t)
    (hother : other edge node < n) (hedge : edges[eid]? = some edge)
    (hfresh : other edge node ∉ t.preorder) (ht' : Visited n m t') (heid : eid < m)
    (hleft : Left edges incident (t.found node (other edge node) eid) (node :: stack)
      (other edge node) t') :
    Following edges incident s stack node (done ++ [eid]) (t'.flag eid) := by
  have hgrows : Grows (t.found node (other edge node) eid) t' (other edge node) := hleft.grows
  have hnode : node ∈ t.preorder := h.grows.node_mem
  have hplace : ∀ {v}, v ∈ t.preorder → t'.place v = t.place v := fun hv => hgrows.place_eq hv
  -- The call below wrote the parent of its own node and of later ones only.
  have hkept : ∀ v ∈ s.preorder ++ [node],
      t'.parent.getD v none = s.parent.getD v none ∧
        t'.parentEdge.getD v none = s.parentEdge.getD v none := by
    intro v hv
    have hvt : v ∈ t.preorder := h.grows.extends_preorder.subset hv
    have hfound := getD_found_of_mem node eid hfresh hvt
    rw [hgrows.parent_eq v (List.mem_append_left _ hvt),
      hgrows.parentEdge_eq v (List.mem_append_left _ hvt), hfound.1, hfound.2,
      h.grows.parent_eq v hv, h.grows.parentEdge_eq v hv]
    exact ⟨rfl, rfl⟩
  refine ⟨hleft.searched.flag eid, ?_, ⟨?_, fun v hv => (hkept v hv).1, fun v hv => (hkept v hv).2⟩,
    ?_⟩
  · refine hleft.flagged.flag ht' heid hgrows.node_mem ?_ ?_
    · exact fun hmem => hfresh (h.searched.stack_mem _ hmem)
    · rw [hgrows.parentEdge_eq _ (List.mem_append_right _ (List.mem_singleton.2 rfl)),
        VisitState.found, getD_set, if_pos ⟨rfl, by rw [ht.parentEdge_length]; exact hother⟩]
  · exact h.grows.extends_preorder.trans ((List.prefix_append _ _).trans hgrows.extends_preorder)
  · intro eid' heid' edge' hedge'
    rcases List.mem_append.1 heid' with heid' | heid'
    · obtain ⟨hmem, hle⟩ := h.followed eid' heid' edge' hedge'
      refine ⟨hgrows.mem hmem, ?_⟩
      show t'.place node ≤ t'.place (other edge' node) ∨ _
      rw [hplace hnode, hplace hmem]
      exact hle
    · obtain rfl := List.mem_singleton.1 heid'
      obtain rfl := Option.some.inj (hedge.symm.trans hedge')
      refine ⟨hgrows.node_mem, .inl ?_⟩
      show t'.place node ≤ t'.place (other edge node)
      rw [hplace hnode]
      exact (place_lt node hnode).le.trans (hgrows.le_place hfresh)

theorem Following.leave (h : Following edges incident s stack node (incident.getD node []) t)
    (ht : Visited n m t) (hnode : node < n) :
    Left edges incident s stack node (t.leave node) where
  searched := h.searched.leave ht hnode h.followed
  flagged := h.flagged
  grows := ⟨h.grows.extends_preorder, h.grows.parent_eq, h.grows.parentEdge_eq⟩

end

/-- A call that is ready to enter its node leaves it. -/
theorem searchRule (hbounds : InBounds edges n) (hfiles : Files edges incident) :
    VisitRule edges n incident (fun _ _ => True)
      (fun node s done t => ∀ stack, Ready edges incident s stack node →
        Following edges incident s stack node done t)
      (fun node s t => ∀ stack, Ready edges incident s stack node →
        Left edges incident s stack node t) where
  enter := by
    intro node s hs hnode _ _ stack hready
    exact .enter hs hnode hready
  skip := by
    intro node s done eid rest t edge _ hinv hsplit hedge hskip stack hready
    exact (hinv stack hready).skip hfiles (by rw [hsplit]; simp) hedge hskip
  find := fun _ _ _ _ _ => trivial
  back := by
    intro node s done eid rest t t' edge ht hinv hsplit hedge htop ht' hpost stack hready
    have h := hinv stack hready
    have hother := other_lt hbounds (List.mem_of_getElem? hedge) node
    have hfresh : other edge node ∉ t.preorder := by
      intro hmem
      exact h.searched.number_ne_top.2 hmem htop
    have hleft := hpost (node :: stack)
      (h.ready ht hother (by rw [hsplit]; simp) hedge hfresh)
    exact h.back ht hother hedge hfresh ht' (List.getElem?_eq_some_iff.1 hedge).1 hleft
  leave := by
    intro node s t hnode ht hinv stack hready
    exact (hinv stack hready).leave ht hnode

/-! ## The whole search -/

/-- The search from `root` has ended. -/
structure SearchedFrom (edges : List (IEdge E)) (incident : List (List Nat)) (n root : Nat)
    (dfs : VisitState) : Prop where
  visited : Visited n edges.length dfs
  files : Files edges incident
  searched : Searched edges incident dfs []
  flagged : Flagged dfs []
  root_mem : root ∈ dfs.preorder
  root_place : dfs.place root = 0

theorem visit_searched (hbounds : InBounds edges n) (hlen : incident.length = n)
    (hfiles : Files edges incident) (hroot : root < n) :
    ∃ dfs, (visit edges incident (n + 1) root).run (VisitState.new n edges.length) = (.ok (), dfs) ∧
      SearchedFrom edges incident n root dfs := by
  have htop : ∀ v, (VisitState.new n edges.length).number.getD v ⊤ = ⊤ :=
    fun v => getD_replicate n v ⊤
  have hunflagged : Flagged (VisitState.new n edges.length) [] := by
    intro eid
    refine iff_of_false ?_ ?_
    · rw [VisitState.new, getD_replicate]
      exact Bool.false_ne_true
    · rintro ⟨v, hv, -⟩
      cases hv
  have hempty : ∀ v, v ∉ (VisitState.new n edges.length).preorder := fun v => List.not_mem_nil
  have hsearched : Searched edges incident (VisitState.new n edges.length) [] :=
    { nodup := List.nodup_nil
      number_eq := fun v hv => absurd hv (hempty v)
      number_none := fun v _ => htop v
      stack_mem := fun v hv => absurd hv List.not_mem_nil
      stack_sorted := List.Pairwise.nil
      closed := fun v hv => absurd hv (hempty v)
      nested := fun v hv => absurd hv (hempty v)
      first := fun v hv => absurd hv (hempty v)
      reached := fun v hv => absurd hv (hempty v)
      followed := fun v hv => absurd hv (hempty v) }
  have hready : Ready edges incident (VisitState.new n edges.length) [] root :=
    ⟨hsearched, hunflagged, List.not_mem_nil, fun _ => ⟨getD_replicate n root none, getD_replicate n root none⟩,
      fun hne => absurd rfl hne⟩
  obtain ⟨dfs, hrun, hdfs, -, hpost⟩ := (searchRule hbounds hfiles).run hbounds hlen
    (fun v eid heid => by
      obtain ⟨edge, hedge, -⟩ := (hfiles v eid).1 heid
      exact (List.getElem?_eq_some_iff.1 hedge).1)
    (n + 1) (new_visited n edges.length) hroot (htop root)
    (by
      refine Nat.le_trans (Finset.card_le_card (Finset.filter_subset _ _)) ?_
      rw [Finset.card_range]
      exact Nat.le_succ n) trivial
  have hleft := hpost [] hready
  have hmem := hleft.grows.node_mem
  have hplace : dfs.place root = 0 := by
    obtain ⟨rest, hrest⟩ := hleft.grows.extends_preorder
    rw [VisitState.place, ← hrest]
    exact List.idxOf_cons_self
  refine ⟨dfs, hrun, hdfs, hfiles, hleft.searched, ?_, hmem, hplace⟩
  -- The root has no tree edge to mark.
  intro eid
  refine (hleft.flagged eid).trans (exists_congr fun v => and_congr_right fun hv => ?_)
  refine and_congr_left fun heid => ?_
  rw [List.mem_singleton]
  refine iff_of_true ?_ List.not_mem_nil
  rintro rfl
  rw [(hleft.searched.first _ hv hplace).2] at heid
  cases heid

namespace SearchedFrom

variable {dfs : VisitState}

theorem place_pos (h : SearchedFrom edges incident n root dfs) {v : Nat} (hv : v ∈ dfs.preorder)
    (hne : v ≠ root) : 0 < dfs.place v := by
  refine Nat.pos_of_ne_zero fun hzero => hne ?_
  exact place_inj hv (hzero.trans h.root_place.symm)

theorem reached (h : SearchedFrom edges incident n root dfs) {v : Nat} (hv : v ∈ dfs.preorder)
    (hne : v ≠ root) : ∃ p eid, ReachedFrom edges incident dfs [] v p eid :=
  h.searched.reached v hv (h.place_pos hv hne)

/-- Both ends of an edge are numbered, or neither is. -/
theorem other_mem (h : SearchedFrom edges incident n root dfs) {v eid : Nat} {edge : IEdge E}
    (hv : v ∈ dfs.preorder) (hedge : edges[eid]? = some edge)
    (hends : edge.fromNode = v ∨ edge.toNode = v) :
    other edge v ∈ dfs.preorder ∧
      (Inside dfs [] v (other edge v) ∨ Inside dfs [] (other edge v) v) :=
  h.searched.followed v hv List.not_mem_nil eid ((h.files v eid).2 ⟨edge, hedge, hends⟩) edge hedge

theorem dst_mem_of_src (h : SearchedFrom edges incident n root dfs) {i : Nat}
    (hi : (edgeGraph edges).IsEdge i) (hsrc : (edgeGraph edges).src i ∈ dfs.preorder) :
    (edgeGraph edges).dst i ∈ dfs.preorder := by
  obtain ⟨edge, hedge⟩ := exists_edge hi
  rw [edgeGraph_src hedge] at hsrc
  have hmem := (h.other_mem hsrc hedge (.inl rfl)).1
  rw [other, if_pos rfl] at hmem
  rw [edgeGraph_dst hedge]
  exact hmem

/-- The search reaches whatever a walk does. -/
theorem mem_of_connected (h : SearchedFrom edges incident n root dfs) {v : Nat}
    (hv : (edgeGraph edges).Connected root v) : v ∈ dfs.preorder :=
  hv.stays (S := {v | v ∈ dfs.preorder}) h.root_mem fun _ hi _ hsrc => h.dst_mem_of_src hi hsrc

theorem lt_endOf_root (h : SearchedFrom edges incident n root dfs) :
    ∀ v ∈ dfs.preorder, dfs.place v < dfs.endOf.getD root 0 := by
  intro v hv
  induction hk : dfs.place v using Nat.strong_induction_on generalizing v with
  | _ k ih =>
      subst hk
      by_cases hne : v = root
      · subst hne
        exact (h.searched.closed v hv List.not_mem_nil).1
      · obtain ⟨p, eid, hp⟩ := h.reached hv hne
        have hplace := ih _ hp.lt p hp.mem rfl
        have hin : Inside dfs [] root p :=
          ⟨by rw [h.root_place]; exact Nat.zero_le _, .inr hplace⟩
        have hle := (h.searched.nested root h.root_mem List.not_mem_nil p hp.mem hin).2
        have hlt := hp.inside.2.resolve_left List.not_mem_nil
        omega

/-- The depth-first tree of the search. -/
def tree (h : SearchedFrom edges incident n root dfs)
    (hreach : ∀ i, (edgeGraph edges).IsEdge i →
      (edgeGraph edges).Connected root ((edgeGraph edges).src i)) :
    DepthFirstTree (edgeGraph edges) where
  Mem v := v ∈ dfs.preorder
  root := root
  parent v := (dfs.parent.getD v none).getD 0
  treeEdge v := (dfs.parentEdge.getD v none).getD 0
  number := dfs.place
  fin v := dfs.endOf.getD v 0
  number_inj := fun hu _ heq => place_inj hu heq
  number_lt_fin := fun hv => (h.searched.closed _ hv List.not_mem_nil).1
  nested := fun hu hv hle hlt =>
    (h.searched.nested _ hu List.not_mem_nil _ hv ⟨hle, .inr hlt⟩).2
  root_mem := h.root_mem
  root_covers := fun hv => ⟨by rw [h.root_place]; exact Nat.zero_le _, h.lt_endOf_root _ hv⟩
  parent_mem := by
    intro v hv hne
    obtain ⟨p, eid, hp⟩ := h.reached hv hne
    rw [hp.parent_eq]
    exact hp.mem
  parent_lt := by
    intro v hv hne
    obtain ⟨p, eid, hp⟩ := h.reached hv hne
    rw [hp.parent_eq]
    exact hp.lt
  lt_fin_parent := by
    intro v hv hne
    obtain ⟨p, eid, hp⟩ := h.reached hv hne
    rw [hp.parent_eq]
    exact hp.inside.2.resolve_left List.not_mem_nil
  le_parent := by
    intro u v hu hv hne hlt hfin
    obtain ⟨p, eid, hp⟩ := h.reached hv hne
    rw [hp.parent_eq]
    exact hp.max u hu hlt ⟨hlt.le, .inr hfin⟩
  treeEdge_isEdge := by
    intro v hv hne
    obtain ⟨p, eid, hp⟩ := h.reached hv hne
    obtain ⟨-, edge, hedge, -⟩ := hp.joins
    rw [hp.parentEdge_eq]
    exact edgeGraph_isEdge hedge
  treeEdge_joins := by
    intro v hv hne
    obtain ⟨p, eid, hp⟩ := h.reached hv hne
    obtain ⟨heid, edge, hedge, hother⟩ := hp.joins
    obtain ⟨edge', hedge', hends⟩ := (h.files p eid).1 heid
    obtain rfl := Option.some.inj (hedge.symm.trans hedge')
    rw [hp.parent_eq, hp.parentEdge_eq]
    simp only [Option.getD_some]
    rw [edgeGraph_src hedge, edgeGraph_dst hedge]
    rw [other] at hother
    split at hother
    · rename_i hfrom
      exact .inl ⟨hfrom, hother⟩
    · rename_i hfrom
      exact .inr ⟨hother, hends.resolve_left hfrom⟩
  src_mem := fun hi => h.mem_of_connected (hreach _ hi)
  dst_mem := fun hi => h.dst_mem_of_src hi (h.mem_of_connected (hreach _ hi))
  comparable := by
    intro i hi
    obtain ⟨edge, hedge⟩ := exists_edge hi
    have hsrc := h.mem_of_connected (hreach _ hi)
    rw [edgeGraph_src hedge] at hsrc ⊢
    rw [edgeGraph_dst hedge]
    have hin := (h.other_mem hsrc hedge (.inl rfl)).2
    rw [other, if_pos rfl] at hin
    refine hin.imp ?_ ?_
    · exact fun hin => ⟨hin.1, hin.2.resolve_left List.not_mem_nil⟩
    · exact fun hin => ⟨hin.1, hin.2.resolve_left List.not_mem_nil⟩

end SearchedFrom

/-! ## What the tree says of the vectors -/

/-- `T` is the tree that `dfs` holds. -/
structure IsSearchTree (edges : List (IEdge E)) (incident : List (List Nat)) (n : Nat)
    (dfs : VisitState) (T : DepthFirstTree (edgeGraph edges)) : Prop where
  visited : Visited n edges.length dfs
  files : Files edges incident
  mem_iff : ∀ {v}, T.Mem v ↔ v ∈ dfs.preorder
  number_eq : ∀ {v}, T.Mem v → dfs.number.getD v ⊤ = WithTop.some (T.number v)
  fin_eq : ∀ v, dfs.endOf.getD v 0 = T.fin v
  preorder_eq : ∀ {v}, T.Mem v → dfs.preorder[T.number v]? = some v
  parent_eq : ∀ {v}, T.Mem v → v ≠ T.root → dfs.parent.getD v none = some (T.parent v)
  parentEdge_eq : ∀ {v}, T.Mem v → v ≠ T.root → dfs.parentEdge.getD v none = some (T.treeEdge v)
  parent_root : dfs.parent.getD T.root none = none
  parentEdge_root : dfs.parentEdge.getD T.root none = none
  tree_iff : ∀ i, dfs.tree.getD i false = true ↔ T.IsTree i
  nodup : dfs.preorder.Nodup

theorem SearchedFrom.isSearchTree {dfs : VisitState} (h : SearchedFrom edges incident n root dfs)
    (hreach : ∀ i, (edgeGraph edges).IsEdge i →
      (edgeGraph edges).Connected root ((edgeGraph edges).src i)) :
    IsSearchTree edges incident n dfs (h.tree hreach) where
  visited := h.visited
  files := h.files
  mem_iff := Iff.rfl
  number_eq := fun hv => h.searched.number_eq _ hv
  fin_eq := fun _ => rfl
  preorder_eq := fun hv => List.getElem?_idxOf hv
  parent_eq := by
    intro v hv hne
    obtain ⟨p, eid, hp⟩ := h.reached hv hne
    show _ = some ((dfs.parent.getD v none).getD 0)
    rw [hp.parent_eq]
    rfl
  parentEdge_eq := by
    intro v hv hne
    obtain ⟨p, eid, hp⟩ := h.reached hv hne
    show _ = some ((dfs.parentEdge.getD v none).getD 0)
    rw [hp.parentEdge_eq]
    rfl
  parent_root := (h.searched.first root h.root_mem h.root_place).1
  parentEdge_root := (h.searched.first root h.root_mem h.root_place).2
  -- The tree edges are those by which the search came to a node.
  tree_iff := by
    intro i
    refine (h.flagged i).trans ⟨?_, ?_⟩
    · rintro ⟨v, hv, -, heid⟩
      refine ⟨v, hv, ?_, ?_⟩
      · rintro rfl
        rw [(h.searched.first v hv h.root_place).2] at heid
        cases heid
      · show (dfs.parentEdge.getD v none).getD 0 = i
        rw [heid]
        rfl
    · rintro ⟨v, hv, hne, heq⟩
      obtain ⟨p, eid, hp⟩ := h.reached hv hne
      refine ⟨v, hv, List.not_mem_nil, hp.parentEdge_eq.trans (congrArg some ?_)⟩
      rw [← heq]
      show eid = (dfs.parentEdge.getD v none).getD 0
      rw [hp.parentEdge_eq]
      rfl
  nodup := h.searched.nodup

end Sese
end Jstd
