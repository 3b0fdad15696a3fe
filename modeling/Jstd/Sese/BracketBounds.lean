import Jstd.Sese.Visit

/-!
# The bracket-list pass, step by step

Both stages before the validation, the depth-first search of the undirected graph and the loop over
its nodes in reverse, only index vectors at node numbers, at edge numbers and at preorder numbers.
`Visited` and `Bracketed` bound what the vectors hold, so that neither stage can fail; each step of
the loop is given as a function of the state it starts from.
-/

namespace Jstd
namespace Sese

open Foundation

variable {E : Type} {edges : List (IEdge E)} {n : Nat}

/-! ## What each step leaves behind -/

/-- `is_descendant`, on vectors that are long enough. -/
def descends (dfs : VisitState) (v ancestor : Nat) : Bool :=
  decide (v ≠ ancestor ∧ dfs.number.getD ancestor ⊤ ≤ dfs.number.getD v ⊤ ∧
    dfs.number.getD v ⊤ < WithTop.some (dfs.endOf.getD ancestor 0))

namespace BracketState

def edgeAt (self : BracketState E) (eid : Nat) : IEdge E :=
  self.edges.getD eid ⟨0, 0, none⟩

def row (self : BracketState E) (v : Nat) : List Nat :=
  self.brackets.getD v []

/-- The row of one node replaced. -/
def setRow (self : BracketState E) (v : Nat) (row : List Nat) : BracketState E :=
  { self with brackets := self.brackets.set v row }

/-- The cap comes from below `node`. -/
def capBelow (dfs : VisitState) (node : Nat) (self : BracketState E) (eid : Nat) : Bool :=
  descends dfs (if (self.edgeAt eid).toNode = node then (self.edgeAt eid).fromNode
    else (self.edgeAt eid).toNode) node

/-- The back edge comes from below `node`. -/
def backBelow (dfs : VisitState) (node : Nat) (self : BracketState E) (eid : Nat) : Bool :=
  !self.tree.getD eid false && descends dfs (other (self.edgeAt eid) node) node

/-- The back edge leads up from `node`. -/
def backUp (dfs : VisitState) (node : Nat) (self : BracketState E) (eid : Nat) : Bool :=
  !self.tree.getD eid false && descends dfs node (other (self.edgeAt eid) node)

def took (node : Nat) (self : BracketState E) (child : Nat) : BracketState E :=
  (self.setRow child []).setRow node ((self.setRow child []).row node ++ self.row child)

def dropped (node : Nat) (self : BracketState E) (eid : Nat) : BracketState E :=
  self.setRow node ((self.row node).filter fun candidate => candidate ≠ eid)

def capDropped (dfs : VisitState) (node : Nat) (self : BracketState E) (eid : Nat) :
    BracketState E :=
  if self.capBelow dfs node eid then self.dropped node eid else self

/-- A class of its own for an edge without one. -/
def labelled (self : BracketState E) (eid : Nat) : BracketState E :=
  if self.classes.getD eid 0 = 0 then
    { self with classes := self.classes.set eid self.nextClass, nextClass := self.nextClass + 1 }
  else self

def backEnded (dfs : VisitState) (node : Nat) (self : BracketState E) (eid : Nat) :
    BracketState E :=
  if self.backBelow dfs node eid then (self.dropped node eid).labelled eid else self

def backBegun (dfs : VisitState) (node : Nat) (self : BracketState E) (eid : Nat) :
    BracketState E :=
  if self.backUp dfs node eid then self.setRow node (self.row node ++ [eid]) else self

def capped (dfs : VisitState) (node k : Nat) (self : BracketState E) : BracketState E :=
  let eid := self.edges.length
  let ancestor := dfs.preorder.getD k 0
  let incident := self.incident.set node (self.incident.getD node [] ++ [eid])
  { self with
    edges := self.edges ++ [⟨node, ancestor, none⟩]
    incident := incident.set ancestor (incident.getD ancestor [] ++ [eid])
    tree := self.tree ++ [false]
    classes := self.classes ++ [0]
    recentSize := self.recentSize ++ [0]
    recentClass := self.recentClass ++ [0]
    capping := self.capping ++ [eid]
    brackets := self.brackets.set node (self.row node ++ [eid]) }

/-- The pair remembered for `top`, renewed when the number of brackets has changed. -/
def renewed (top size : Nat) (self : BracketState E) : BracketState E :=
  if self.recentSize.getD top 0 ≠ size then
    { self with
      recentSize := self.recentSize.set top size
      recentClass := self.recentClass.set top self.nextClass
      nextClass := self.nextClass + 1 }
  else self

def setClass (eid label : Nat) (self : BracketState E) : BracketState E :=
  { self with classes := self.classes.set eid label }

def named (parentEid top size : Nat) (self : BracketState E) : BracketState E :=
  let renewed := self.renewed top size
  let named := renewed.setClass parentEid (renewed.recentClass.getD top 0)
  if named.recentSize.getD top 0 = 1 then named.setClass top (named.classes.getD parentEid 0)
  else named

end BracketState

/-! ## The steps stay in bounds -/

/-- The vectors of the main loop, while the graph with its capping edges is `edges`. -/
structure Bracketed (dfs : VisitState) (n : Nat) (edges : List (IEdge E)) (s : BracketState E) :
    Prop where
  edges_eq : s.edges = edges
  inBounds : InBounds edges n
  tree_length : s.tree.length = edges.length
  classes_length : s.classes.length = edges.length
  recentSize_length : s.recentSize.length = edges.length
  recentClass_length : s.recentClass.length = edges.length
  incident_length : s.incident.length = n
  incident_lt : ∀ v eid, eid ∈ s.incident.getD v [] → eid < edges.length
  hi_length : s.hi.length = n
  hi_lt : ∀ (v k : Nat), s.hi.getD v ⊤ = WithTop.some k → k < dfs.preorder.length
  brackets_length : s.brackets.length = n
  brackets_lt : ∀ v eid, eid ∈ s.brackets.getD v [] → eid < edges.length
  capping_lt : ∀ eid ∈ s.capping, eid < edges.length

section

variable {dfs : VisitState} {m node : Nat} {s : BracketState E}

theorem isDescendant_eq (hdfs : Visited n m dfs) {v ancestor : Nat} (hv : v < n)
    (hancestor : ancestor < n) : isDescendant dfs v ancestor = .ok (descends dfs v ancestor) := by
  rw [isDescendant, descends]
  by_cases hne : v = ancestor
  · rw [if_pos hne]
    simp [hne]
    rfl
  · rw [if_neg hne,
      index_of_lt (show ancestor < dfs.number.length by rw [hdfs.number_length]; exact hancestor) ⊤,
      index_of_lt (show v < dfs.number.length by rw [hdfs.number_length]; exact hv) ⊤]
    show (if dfs.number.getD ancestor ⊤ ≤ dfs.number.getD v ⊤ then _ else _) = _
    split
    · rename_i hle
      rw [index_of_lt (show ancestor < dfs.endOf.length by
        rw [hdfs.endOf_length]; exact hancestor) 0]
      show Except.ok (decide _) = _
      congr 1
      rw [decide_eq_decide]
      exact ⟨fun hlt => ⟨hne, hle, hlt⟩, fun h => h.2.2⟩
    · rename_i hle
      show Except.ok false = _
      congr 1
      rw [eq_comm, decide_eq_false_iff_not]
      exact fun h => hle h.2.1

namespace Bracketed

theorem edge_ok (h : Bracketed dfs n edges s) {eid : Nat} (heid : eid < edges.length) :
    index s.edges eid = .ok (s.edgeAt eid) :=
  index_of_lt (by rw [h.edges_eq]; exact heid) _

theorem edgeAt_mem (h : Bracketed dfs n edges s) {eid : Nat} (heid : eid < edges.length) :
    s.edgeAt eid ∈ edges := by
  rw [BracketState.edgeAt, h.edges_eq, List.getD_eq_getElem?_getD, List.getElem?_eq_getElem heid]
  exact List.getElem_mem heid

theorem tree_ok (h : Bracketed dfs n edges s) {eid : Nat} (heid : eid < edges.length) :
    index s.tree eid = .ok (s.tree.getD eid false) :=
  index_of_lt (by rw [h.tree_length]; exact heid) false

theorem row_ok (h : Bracketed dfs n edges s) {v : Nat} (hv : v < n) :
    index s.brackets v = .ok (s.row v) :=
  index_of_lt (by rw [h.brackets_length]; exact hv) []

theorem setRow_ok (h : Bracketed dfs n edges s) {v : Nat} (hv : v < n) (row : List Nat) :
    setIndex s.brackets v row = .ok (s.setRow v row).brackets :=
  setIndex_of_lt (by rw [h.brackets_length]; exact hv) row

/-- Replacing a row by edge numbers. -/
theorem setRow (h : Bracketed dfs n edges s) (v : Nat) {row : List Nat}
    (hrow : ∀ eid ∈ row, eid < edges.length) : Bracketed dfs n edges (s.setRow v row) :=
  { h with
    brackets_length := by rw [BracketState.setRow, List.length_set, h.brackets_length]
    brackets_lt := by
      intro w eid hmem
      rcases mem_getD_set hmem with hmem | hmem
      · exact hrow eid hmem
      · exact h.brackets_lt w eid hmem }

/-- Replacing what the labels are kept in. -/
theorem relabel (h : Bracketed dfs n edges s) {classes recentSize recentClass : List Nat}
    (hclasses : classes.length = s.classes.length)
    (hsize : recentSize.length = s.recentSize.length)
    (hclass : recentClass.length = s.recentClass.length) (nextClass : Nat) :
    Bracketed dfs n edges
      { s with
        classes := classes
        recentSize := recentSize
        recentClass := recentClass
        nextClass := nextClass } :=
  { h with
    classes_length := hclasses.trans h.classes_length
    recentSize_length := hsize.trans h.recentSize_length
    recentClass_length := hclass.trans h.recentClass_length }

theorem took (h : Bracketed dfs n edges s) (child : Nat) : Bracketed dfs n edges (s.took node child) := by
  have hchild : Bracketed dfs n edges (s.setRow child []) :=
    h.setRow child fun eid hmem => by cases hmem
  refine hchild.setRow node fun eid hmem => ?_
  rcases List.mem_append.1 hmem with hmem | hmem
  · exact hchild.brackets_lt node eid hmem
  · exact h.brackets_lt child eid hmem

theorem takeBrackets_run (h : Bracketed dfs n edges s) {child : Nat} (hnode : node < n)
    (hchild : child < n) :
    (takeBrackets node child).run s = (.ok (), s.took node child) := by
  have hempty : Bracketed dfs n edges (s.setRow child []) :=
    h.setRow child fun eid hmem => by cases hmem
  simp only [takeBrackets, Method.run_bind_get, Method.run_bind_liftM_ok, h.row_ok hchild,
    h.setRow_ok hchild, hempty.row_ok hnode, hempty.setRow_ok hnode]
  rfl

theorem dropped (h : Bracketed dfs n edges s) (eid : Nat) : Bracketed dfs n edges (s.dropped node eid) :=
  h.setRow node fun eid' hmem => h.brackets_lt node eid' (List.mem_filter.1 hmem).1

theorem dropBracket_run (h : Bracketed dfs n edges s) (hnode : node < n) (eid : Nat) :
    (dropBracket node eid).run s = (.ok (), s.dropped node eid) := by
  simp only [dropBracket, Method.run_bind_get, Method.run_bind_liftM_ok, h.row_ok hnode,
    h.setRow_ok hnode]
  rfl

theorem capDropped (h : Bracketed dfs n edges s) (eid : Nat) :
    Bracketed dfs n edges (s.capDropped dfs node eid) := by
  rw [BracketState.capDropped]
  split
  · exact h.dropped eid
  · exact h

theorem dropCap_run (h : Bracketed dfs n edges s) (hdfs : Visited n m dfs) (hnode : node < n)
    {eid : Nat} (heid : eid < edges.length) :
    (dropCap dfs node eid).run s = (.ok (), s.capDropped dfs node eid) := by
  obtain ⟨hfrom, hto⟩ := h.inBounds _ (h.edgeAt_mem heid)
  have hlt : (if (s.edgeAt eid).toNode = node then (s.edgeAt eid).fromNode
      else (s.edgeAt eid).toNode) < n := by
    split
    · exact hfrom
    · exact hto
  simp only [dropCap, Method.run_bind_get, h.edge_ok heid, Method.run_bind_liftM_ok,
    isDescendant_eq hdfs hlt hnode]
  rw [BracketState.capDropped]
  by_cases hbelow : s.capBelow dfs node eid = true
  · rw [if_pos hbelow]
    rw [BracketState.capBelow] at hbelow
    rw [if_pos hbelow]
    exact h.dropBracket_run hnode eid
  · rw [if_neg hbelow]
    rw [BracketState.capBelow] at hbelow
    rw [if_neg hbelow]
    rfl

theorem labelled (h : Bracketed dfs n edges s) (eid : Nat) :
    Bracketed dfs n edges (s.labelled eid) := by
  rw [BracketState.labelled]
  split
  · exact h.relabel List.length_set rfl rfl _
  · exact h

theorem backEnded (h : Bracketed dfs n edges s) (eid : Nat) :
    Bracketed dfs n edges (s.backEnded dfs node eid) := by
  rw [BracketState.backEnded]
  split
  · exact (h.dropped eid).labelled eid
  · exact h

theorem endBackEdge_run (h : Bracketed dfs n edges s) (hdfs : Visited n m dfs) (hnode : node < n)
    {eid : Nat} (heid : eid < edges.length) :
    (endBackEdge dfs node eid).run s = (.ok (), s.backEnded dfs node eid) := by
  simp only [endBackEdge, Method.run_bind_get, h.tree_ok heid, Method.run_bind_liftM_ok]
  rw [BracketState.backEnded]
  -- A tree edge ends no bracket.
  by_cases htree : s.tree.getD eid false = true
  · rw [if_pos htree, BracketState.backBelow, htree]
    rfl
  · have htree' := (Bool.not_eq_true _).mp htree
    rw [if_neg htree]
    simp only [h.edge_ok heid, Method.run_bind_liftM_ok,
      isDescendant_eq hdfs (other_lt h.inBounds (h.edgeAt_mem heid) node) hnode]
    -- The back edge ends here if its other end is below.
    by_cases hbelow : descends dfs (other (s.edgeAt eid) node) node = true
    · have ht : Bracketed dfs n edges (s.dropped node eid) := h.dropped eid
      have hlt : eid < (s.dropped node eid).classes.length := by
        rw [ht.classes_length]
        exact heid
      rw [if_pos hbelow, if_pos (by rw [BracketState.backBelow, htree', hbelow]; rfl),
        Method.run_bind_of_ok (h.dropBracket_run hnode eid)]
      simp only [Method.run_bind_get, index_of_lt hlt 0, Method.run_bind_liftM_ok,
        BracketState.labelled]
      split
      · simp only [setIndex_of_lt hlt, Method.run_bind_liftM_ok]
        rfl
      · rfl
    · rw [if_neg hbelow, if_neg (by rw [BracketState.backBelow, htree']; exact hbelow)]
      rfl

theorem backBegun (h : Bracketed dfs n edges s) {eid : Nat} (heid : eid < edges.length) :
    Bracketed dfs n edges (s.backBegun dfs node eid) := by
  rw [BracketState.backBegun]
  split
  · refine h.setRow node fun eid' hmem => ?_
    rcases List.mem_append.1 hmem with hmem | hmem
    · exact h.brackets_lt node eid' hmem
    · obtain rfl := List.mem_singleton.1 hmem
      exact heid
  · exact h

theorem beginBackEdge_run (h : Bracketed dfs n edges s) (hdfs : Visited n m dfs) (hnode : node < n)
    {eid : Nat} (heid : eid < edges.length) :
    (beginBackEdge dfs node eid).run s = (.ok (), s.backBegun dfs node eid) := by
  simp only [beginBackEdge, Method.run_bind_get, h.tree_ok heid, Method.run_bind_liftM_ok]
  rw [BracketState.backBegun]
  by_cases htree : s.tree.getD eid false = true
  · rw [if_pos htree, BracketState.backUp, htree]
    rfl
  · have htree' := (Bool.not_eq_true _).mp htree
    rw [if_neg htree]
    simp only [h.edge_ok heid, Method.run_bind_liftM_ok,
      isDescendant_eq hdfs hnode (other_lt h.inBounds (h.edgeAt_mem heid) node)]
    by_cases hup : descends dfs node (other (s.edgeAt eid) node) = true
    · rw [if_pos hup, if_pos (by rw [BracketState.backUp, htree', hup]; rfl)]
      simp only [Method.run_bind_liftM_ok,
        pushAt_of_lt (show node < s.brackets.length by rw [h.brackets_length]; exact hnode)]
      rfl
    · rw [if_neg hup, if_neg (by rw [BracketState.backUp, htree']; exact hup)]
      rfl

/-- A loop of steps over edge numbers or node numbers. -/
theorem forEach_run (body : Nat → Method Panic (BracketState E) Unit)
    (step : BracketState E → Nat → BracketState E) (is : List Nat)
    (hbody : ∀ i ∈ is, ∀ s, Bracketed dfs n edges s →
      (body i).run s = (.ok (), step s i) ∧ Bracketed dfs n edges (step s i))
    (h : Bracketed dfs n edges s) :
    (Method.forEach body is).run s = (.ok (), is.foldl step s) ∧
      Bracketed dfs n edges (is.foldl step s) := by
  induction is generalizing s with
  | nil => exact ⟨rfl, h⟩
  | cons i is ih =>
      obtain ⟨hrun, ht⟩ := hbody i List.mem_cons_self s h
      rw [Method.forEach_cons_of_ok hrun, List.foldl_cons]
      exact ih (fun j hj => hbody j (List.mem_cons_of_mem i hj)) ht

theorem addCap_run (h : Bracketed dfs n edges s) (hdfs : Visited n m dfs) (hnode : node < n)
    {k : Nat} (hk : k < dfs.preorder.length) :
    (addCap dfs node (WithTop.some k)).run s = (.ok (), s.capped dfs node k) ∧
      Bracketed dfs n (edges ++ [⟨node, dfs.preorder.getD k 0, none⟩]) (s.capped dfs node k) := by
  have hancestor : dfs.preorder.getD k 0 < n := by
    rw [List.getD_eq_getElem?_getD, List.getElem?_eq_getElem hk]
    exact hdfs.preorder_lt _ (List.getElem_mem hk)
  -- Pushing the new edge onto a row keeps the rows in bounds.
  have hpush : ∀ {rows : List (List Nat)},
      (∀ v eid, eid ∈ rows.getD v [] → eid < edges.length + 1) → ∀ i v eid,
      eid ∈ (rows.set i (rows.getD i [] ++ [edges.length])).getD v [] → eid < edges.length + 1 := by
    intro rows hrows i v eid hmem
    rcases mem_getD_set hmem with hmem | hmem
    · rcases List.mem_append.1 hmem with hmem | hmem
      · exact hrows i eid hmem
      · obtain rfl := List.mem_singleton.1 hmem
        exact Nat.lt_succ_self _
    · exact hrows v eid hmem
  have hlen : (s.incident.set node (s.incident.getD node [] ++ [edges.length])).length = n := by
    rw [List.length_set, h.incident_length]
  constructor
  · simp only [addCap, preorderAt, Method.run_bind_get, h.edges_eq, Method.run_bind_liftM_ok,
      index_of_lt hk 0,
      pushAt_of_lt (show node < s.incident.length by rw [h.incident_length]; exact hnode),
      pushAt_of_lt (show node < s.brackets.length by rw [h.brackets_length]; exact hnode),
      pushAt_of_lt (show dfs.preorder.getD k 0 < (s.incident.set node
        (s.incident.getD node [] ++ [edges.length])).length by rw [hlen]; exact hancestor),
      BracketState.capped]
    rfl
  · simp only [BracketState.capped, h.edges_eq]
    constructor
    · rfl
    · intro edge hmem
      rcases List.mem_append.1 hmem with hmem | hmem
      · exact h.inBounds edge hmem
      · obtain rfl := List.mem_singleton.1 hmem
        exact ⟨hnode, hancestor⟩
    · simp [h.tree_length]
    · simp [h.classes_length]
    · simp [h.recentSize_length]
    · simp [h.recentClass_length]
    · rw [List.length_set, hlen]
    · rw [List.length_append, List.length_singleton]
      exact hpush (hpush (fun v eid hmem => Nat.lt_succ_of_lt (h.incident_lt v eid hmem)) node) _
    · exact h.hi_length
    · exact h.hi_lt
    · rw [List.length_set, h.brackets_length]
    · rw [List.length_append, List.length_singleton]
      exact hpush (fun v eid hmem => Nat.lt_succ_of_lt (h.brackets_lt v eid hmem)) node
    · intro eid hmem
      rw [List.length_append, List.length_singleton]
      rcases List.mem_append.1 hmem with hmem | hmem
      · exact Nat.lt_succ_of_lt (h.capping_lt eid hmem)
      · obtain rfl := List.mem_singleton.1 hmem
        exact Nat.lt_succ_self _

theorem setClass (h : Bracketed dfs n edges s) (eid label : Nat) :
    Bracketed dfs n edges (s.setClass eid label) :=
  h.relabel List.length_set rfl rfl _

theorem renewed (h : Bracketed dfs n edges s) (top size : Nat) :
    Bracketed dfs n edges (s.renewed top size) := by
  rw [BracketState.renewed]
  split
  · exact h.relabel rfl List.length_set List.length_set _
  · exact h

theorem named (h : Bracketed dfs n edges s) (parentEid top size : Nat) :
    Bracketed dfs n edges (s.named parentEid top size) := by
  have ht := (h.renewed top size).setClass parentEid ((s.renewed top size).recentClass.getD top 0)
  simp only [BracketState.named]
  split
  · exact ht.setClass _ _
  · exact ht

theorem nameTreeEdge_run (h : Bracketed dfs n edges s) {parentEid top : Nat}
    (hparent : parentEid < edges.length) (htop : top < edges.length) (size : Nat) :
    (nameTreeEdge parentEid top size).run s = (.ok (), s.named parentEid top size) := by
  -- The first conditional: a list of another size starts a new class.
  have hrenew : ((if s.recentSize.getD top 0 ≠ size then do
      let recentSize ← setIndex s.recentSize top size
      let recentClass ← setIndex s.recentClass top s.nextClass
      modify fun self =>
        { self with recentSize := recentSize, recentClass := recentClass,
                    nextClass := self.nextClass + 1 }
      else pure () : Method Panic (BracketState E) Unit)).run s =
        (.ok (), s.renewed top size) := by
    rw [BracketState.renewed]
    split
    · simp only [Method.run_bind_liftM_ok,
        setIndex_of_lt (show top < s.recentSize.length by rw [h.recentSize_length]; exact htop),
        setIndex_of_lt (show top < s.recentClass.length by rw [h.recentClass_length]; exact htop)]
      rfl
    · rfl
  have ht := h.renewed top size
  obtain ⟨t, heq⟩ : ∃ t, s.renewed top size = t := ⟨_, rfl⟩
  have hu := ht.setClass parentEid (t.recentClass.getD top 0)
  rw [heq] at hrenew ht hu
  have hclasses : ∀ {u : BracketState E}, Bracketed dfs n edges u → ∀ {i}, i < edges.length →
      i < u.classes.length := fun hu _ hi => by rw [hu.classes_length]; exact hi
  simp only [nameTreeEdge, Method.run_bind_get, Method.run_bind_liftM_ok,
    index_of_lt (show top < s.recentSize.length by rw [h.recentSize_length]; exact htop) 0]
  rw [Method.run_bind_of_ok hrenew]
  simp only [Method.run_bind_get, Method.run_bind_liftM_ok, Method.run_bind_modify,
    index_of_lt (show top < t.recentClass.length by rw [ht.recentClass_length]; exact htop) 0,
    setIndex_of_lt (hclasses ht hparent),
    index_of_lt (show top < t.recentSize.length by rw [ht.recentSize_length]; exact htop) 0,
    BracketState.named, heq, BracketState.setClass]
  split
  · have hparent' := hclasses hu hparent
    have htop' := hclasses hu htop
    rw [BracketState.setClass] at hparent' htop'
    simp only [Method.run_bind_liftM_ok, index_of_lt hparent' 0, setIndex_of_lt htop']
    rfl
  · rfl

end Bracketed

/-! ## One turn of the main loop -/

theorem mem_of_minOrMax {xs : List (WithTop Nat)} {k : Nat}
    (h : minOrMax xs = WithTop.some k) : WithTop.some k ∈ xs := by
  induction xs with
  | nil => cases h
  | cons x xs ih =>
      rw [minOrMax] at h
      rcases min_choice x (minOrMax xs) with hmin | hmin
      · rw [← h, hmin]
        exact List.mem_cons_self
      · exact List.mem_cons_of_mem x (ih (hmin ▸ h))

/-- A number that is `⊤` or a preorder number. -/
def IsNumber (dfs : VisitState) (x : WithTop Nat) : Prop :=
  ∀ k : Nat, x = WithTop.some k → k < dfs.preorder.length

theorem isNumber_minOrMax {xs : List (WithTop Nat)} (h : ∀ x ∈ xs, IsNumber dfs x) :
    IsNumber dfs (minOrMax xs) :=
  fun k hk => h _ (mem_of_minOrMax hk) k rfl

/-- The children of a node, in preorder. -/
def VisitState.childrenOf (self : VisitState) (node : Nat) : List Nat :=
  self.preorder.filter fun child => self.parent.getD child none = some node

theorem childrenOf_lt (hdfs : Visited n m dfs) {child : Nat} (h : child ∈ dfs.childrenOf node) :
    child < n :=
  hdfs.preorder_lt child (List.mem_filter.1 h).1

theorem children_eq (hdfs : Visited n m dfs) (node : Nat) :
    filterMapChecked (fun child => do
      let parent ← index dfs.parent child
      return if parent = some node then some child else none) dfs.preorder =
        .ok (dfs.childrenOf node) := by
  rw [filterMapChecked_of_ok (g := fun child =>
    if dfs.parent.getD child none = some node then some child else none)]
  · congr 1
    rw [VisitState.childrenOf, ← List.filterMap_eq_filter]
    refine List.filterMap_congr fun child _ => ?_
    simp [Option.guard]
  · intro child hchild
    rw [index_of_lt (show child < dfs.parent.length by
      rw [hdfs.parent_length]; exact hdfs.preorder_lt child hchild) none]
    rfl

/-- The numbers that `upNumbers` collects. -/
def BracketState.upsOf (dfs : VisitState) (node : Nat) (self : BracketState E) (eids : List Nat) :
    List (WithTop Nat) :=
  (eids.filter (self.backUp dfs node)).map fun eid =>
    dfs.number.getD (other (self.edgeAt eid) node) ⊤

theorem Bracketed.upNumbers_eq (h : Bracketed dfs n edges s) (hdfs : Visited n m dfs)
    (hnode : node < n) {eids : List Nat} (heids : ∀ eid ∈ eids, eid < edges.length) :
    upNumbers dfs s node eids = .ok (s.upsOf dfs node eids) := by
  rw [upNumbers, filterMapChecked_of_ok (g := fun eid =>
    if s.backUp dfs node eid then some (dfs.number.getD (other (s.edgeAt eid) node) ⊤) else none)]
  · congr 1
    rw [BracketState.upsOf, ← List.filterMap_eq_filter, List.map_filterMap]
    refine List.filterMap_congr fun eid _ => ?_
    cases hup : s.backUp dfs node eid with
    | true => simp [Option.guard, hup]
    | false => simp [Option.guard, hup]
  · intro eid hmem
    have heid := heids eid hmem
    have hother := other_lt h.inBounds (h.edgeAt_mem heid) node
    rw [h.tree_ok heid, BracketState.backUp]
    -- Only a back edge to a proper ancestor counts.
    cases s.tree.getD eid false with
    | true => rfl
    | false =>
        rw [h.edge_ok heid]
        show (isDescendant dfs node (other (s.edgeAt eid) node) >>= _) = _
        rw [isDescendant_eq hdfs hnode hother]
        show (if descends dfs node (other (s.edgeAt eid) node) = true then _ else _) = _
        simp only [Bool.not_false, Bool.true_and]
        split
        · rw [index_of_lt (show _ < dfs.number.length by rw [hdfs.number_length]; exact hother) ⊤]
          rfl
        · rfl

theorem upsOf_isNumber (hdfs : Visited n m dfs) {eids : List Nat} :
    ∀ x ∈ s.upsOf dfs node eids, IsNumber dfs x := by
  intro x hx k hk
  obtain ⟨eid, -, rfl⟩ := List.mem_map.1 hx
  exact hdfs.number_lt _ k hk

theorem his_eq {hi : List (WithTop Nat)} (hlen : hi.length = n) {children : List Nat}
    (hchildren : ∀ child ∈ children, child < n) :
    filterMapChecked (fun child => do
      let hiChild ← index hi child
      return some hiChild) children = .ok (children.map fun child => hi.getD child ⊤) := by
  rw [filterMapChecked_of_ok (g := fun child => some (hi.getD child ⊤))]
  · rw [List.filterMap_eq_map']
  · intro child hchild
    rw [index_of_lt (show child < hi.length by rw [hlen]; exact hchildren child hchild) ⊤]
    rfl

namespace BracketState

/-- `hi0`. -/
def hi0 (dfs : VisitState) (node : Nat) (self : BracketState E) : WithTop Nat :=
  minOrMax (self.upsOf dfs node (self.incident.getD node []))

/-- `hi1`. -/
def hi1 (dfs : VisitState) (node : Nat) (self : BracketState E) : WithTop Nat :=
  minOrMax ((dfs.childrenOf node).map fun child => self.hi.getD child ⊤)

def hiSet (dfs : VisitState) (node : Nat) (self : BracketState E) : BracketState E :=
  { self with hi := self.hi.set node (min (self.hi0 dfs node) (self.hi1 dfs node)) }

/-- `hi2`. -/
def hi2 (dfs : VisitState) (node : Nat) (self : BracketState E) : WithTop Nat :=
  minOrMax (((dfs.childrenOf node).map fun child => (self.hiSet dfs node).hi.getD child ⊤).erase
    (self.hi1 dfs node))

/-- The brackets of the children less those that end at `node`. -/
def collected (dfs : VisitState) (node : Nat) (self : BracketState E) : BracketState E :=
  let taken := (dfs.childrenOf node).foldl (took node) (self.hiSet dfs node)
  let uncapped := taken.capping.foldl (capDropped dfs node) taken
  (self.incident.getD node []).foldl (backEnded dfs node) uncapped

/-- The state in which the tree edge of `node` is named. -/
def listed (dfs : VisitState) (node : Nat) (self : BracketState E) : BracketState E :=
  let begun := (self.incident.getD node []).foldl (backBegun dfs node) (self.collected dfs node)
  if self.hi2 dfs node < self.hi0 dfs node then
    begun.capped dfs node ((self.hi2 dfs node).untopD 0)
  else begun

end BracketState

/-- What the loop does with a node once its brackets are listed. -/
theorem processNode_run (hdfs : Visited n m dfs) (hm : m ≤ edges.length)
    (h : Bracketed dfs n edges s) (hnode : node < n) :
    ∃ edges', Bracketed dfs n edges' (s.listed dfs node) ∧ edges.length ≤ edges'.length ∧
      (processNode dfs node).run s =
        match dfs.parentEdge.getD node none with
        | none => (.ok true, s.listed dfs node)
        | some parentEid =>
            match ((s.listed dfs node).row node).getLast? with
            | none => (.ok false, s.listed dfs node)
            | some top =>
                (.ok true, (s.listed dfs node).named parentEid top
                  ((s.listed dfs node).row node).length) := by
  have hchildren : ∀ child ∈ dfs.childrenOf node, child < n :=
    fun child hchild => childrenOf_lt hdfs hchild
  have heids : ∀ eid ∈ s.incident.getD node [], eid < edges.length := h.incident_lt node
  -- The numbers are compared as numbers or `usize::MAX`; only the former are indices.
  have hhi0 : IsNumber dfs (s.hi0 dfs node) := isNumber_minOrMax (upsOf_isNumber hdfs)
  have hhi1 : IsNumber dfs (s.hi1 dfs node) := by
    refine isNumber_minOrMax fun x hx => ?_
    obtain ⟨child, -, rfl⟩ := List.mem_map.1 hx
    exact h.hi_lt child
  have h₁ : Bracketed dfs n edges (s.hiSet dfs node) :=
    { h with
      hi_length := by rw [BracketState.hiSet, List.length_set, h.hi_length]
      hi_lt := by
        intro v k hk
        rw [BracketState.hiSet, getD_set] at hk
        split at hk
        · rcases min_choice (s.hi0 dfs node) (s.hi1 dfs node) with hmin | hmin
          · exact hhi0 k (hmin ▸ hk)
          · exact hhi1 k (hmin ▸ hk)
        · exact h.hi_lt v k hk }
  have hhi2 : IsNumber dfs (s.hi2 dfs node) := by
    refine isNumber_minOrMax fun x hx => ?_
    obtain ⟨child, -, rfl⟩ := List.mem_map.1 (List.mem_of_mem_erase hx)
    exact h₁.hi_lt child
  -- The four loops of the turn, each of which keeps the bounds.
  obtain ⟨hrun₂, h₂⟩ := h₁.forEach_run (takeBrackets node) (BracketState.took node)
    (dfs.childrenOf node)
    fun child hchild t ht => ⟨ht.takeBrackets_run hnode (hchildren child hchild), ht.took child⟩
  obtain ⟨hrun₃, h₃⟩ := h₂.forEach_run (dropCap dfs node)
    (BracketState.capDropped dfs node) _
    fun eid heid t ht => ⟨ht.dropCap_run hdfs hnode (h₂.capping_lt eid heid), ht.capDropped eid⟩
  obtain ⟨hrun₄, h₄⟩ := h₃.forEach_run (endBackEdge dfs node)
    (BracketState.backEnded dfs node) _
    fun eid heid t ht => ⟨ht.endBackEdge_run hdfs hnode (heids eid heid), ht.backEnded eid⟩
  obtain ⟨hrun₅, h₅⟩ := h₄.forEach_run (beginBackEdge dfs node)
    (BracketState.backBegun dfs node) _
    fun eid heid t ht =>
      ⟨ht.beginBackEdge_run hdfs hnode (heids eid heid), ht.backBegun (heids eid heid)⟩
  -- Only this step adds an edge.
  have hcap : ∃ edges', Bracketed dfs n edges' (s.listed dfs node) ∧
      edges.length ≤ edges'.length ∧
      (if s.hi2 dfs node < s.hi0 dfs node then addCap dfs node (s.hi2 dfs node) else pure () :
        Method Panic (BracketState E) Unit).run
          ((s.incident.getD node []).foldl (BracketState.backBegun dfs node)
            (s.collected dfs node)) = (.ok (), s.listed dfs node) := by
    simp only [BracketState.listed]
    split
    · rename_i hlt
      obtain ⟨k, hk⟩ := WithTop.ne_top_iff_exists.1 (ne_top_of_lt hlt)
      obtain ⟨hrun, ht⟩ := h₅.addCap_run hdfs hnode (hhi2 k hk.symm)
      rw [← hk]
      exact ⟨_, ht, by simp, hrun⟩
    · exact ⟨edges, h₅, Nat.le_refl _, rfl⟩
  obtain ⟨edges', h₆, hle, hrun₆⟩ := hcap
  refine ⟨edges', h₆, hle, ?_⟩
  simp only [processNode, children_eq hdfs node, Method.run_bind_liftM_ok, Method.run_bind_get,
    index_of_lt (show node < s.incident.length by rw [h.incident_length]; exact hnode) [],
    h.upNumbers_eq hdfs hnode heids, his_eq h.hi_length hchildren,
    setIndex_of_lt (show node < s.hi.length by rw [h.hi_length]; exact hnode),
    Method.run_bind_modify]
  rw [his_eq (by rw [List.length_set, h.hi_length]) hchildren]
  simp only [Method.run_bind_liftM_ok]
  refine (Method.run_bind_of_ok hrun₂ _).trans ?_
  simp only [Method.run_bind_get]
  refine (Method.run_bind_of_ok hrun₃ _).trans ?_
  refine (Method.run_bind_of_ok hrun₄ _).trans ?_
  refine (Method.run_bind_of_ok hrun₅ _).trans ?_
  refine (Method.run_bind_of_ok hrun₆ _).trans ?_
  simp only [Method.run_bind_liftM_ok,
    index_of_lt (show node < dfs.parentEdge.length by rw [hdfs.parentEdge_length]; exact hnode) none]
  cases hparent : dfs.parentEdge.getD node none with
  | none => rfl
  | some parentEid =>
      have hparentEid := hdfs.parentEdge_lt node parentEid hparent
      simp only [Method.run_bind_get, Method.run_bind_liftM_ok, h₆.row_ok hnode]
      cases htop : ((s.listed dfs node).row node).getLast? with
      | none => rfl
      | some top =>
          simp only
          rw [Method.run_bind_of_ok (h₆.nameTreeEdge_run (by omega)
            (h₆.brackets_lt node top (List.mem_of_getLast? htop)) _)]
          rfl

theorem processNode_spec (hdfs : Visited n m dfs) (hm : m ≤ edges.length)
    (h : Bracketed dfs n edges s) (hnode : node < n) :
    ∃ r t edges', (processNode dfs node).run s = (.ok r, t) ∧ Bracketed dfs n edges' t ∧
      edges.length ≤ edges'.length := by
  obtain ⟨edges', ht, hle, hrun⟩ := processNode_run hdfs hm h hnode
  rw [hrun]
  cases dfs.parentEdge.getD node none with
  | none => exact ⟨true, _, edges', rfl, ht, hle⟩
  | some parentEid =>
      cases ((s.listed dfs node).row node).getLast? with
      | none => exact ⟨false, _, edges', rfl, ht, hle⟩
      | some top => exact ⟨true, _, edges', rfl, ht.named parentEid top _, hle⟩

theorem bracketLoop_spec (hdfs : Visited n m dfs) (nodes : List Nat) (hnodes : ∀ v ∈ nodes, v < n) :
    ∀ {edges : List (IEdge E)} {s : BracketState E}, m ≤ edges.length →
      Bracketed dfs n edges s →
      ∃ r t edges', (bracketLoop dfs nodes).run s = (.ok r, t) ∧ Bracketed dfs n edges' t ∧
        m ≤ edges'.length := by
  induction nodes with
  | nil =>
      intro edges s hm h
      exact ⟨true, s, edges, rfl, h, hm⟩
  | cons node nodes ih =>
      intro edges s hm h
      obtain ⟨r, t, edges', hrun, ht, hle⟩ :=
        processNode_spec hdfs hm h (hnodes node List.mem_cons_self)
      rw [bracketLoop, Method.run_bind_of_ok hrun]
      cases r with
      | true => exact ih (fun v hv => hnodes v (List.mem_cons_of_mem node hv)) (by omega) ht
      | false => exact ⟨false, t, edges', rfl, ht, by omega⟩

end

/-- The state the loop starts from. -/
theorem new_bracketed (hbounds : InBounds edges n) {dfs : VisitState} {incident : List (List Nat)}
    (hdfs : Visited n edges.length dfs) (hlen : incident.length = n)
    (hlt : ∀ v eid, eid ∈ incident.getD v [] → eid < edges.length) :
    Bracketed dfs n edges (BracketState.new edges n incident dfs.tree) := by
  constructor
  · rfl
  · exact hbounds
  · exact hdfs.tree_length
  · exact List.length_replicate
  · exact List.length_replicate
  · exact List.length_replicate
  · exact hlen
  · exact hlt
  · exact List.length_replicate
  · intro v k hk
    rw [BracketState.new, getD_replicate] at hk
    cases hk
  · exact List.length_replicate
  · intro v eid hmem
    rw [BracketState.new, getD_replicate] at hmem
    cases hmem
  · intro eid hmem
    cases hmem

/-- The pass ends, and labels every edge or gives up. -/
theorem bracketClasses_spec (hbounds : InBounds edges n) {root : Nat} (hroot : root < n) :
    ∃ r, bracketClasses edges n root = .ok r ∧
      ∀ classes, r = some classes → classes.length = edges.length := by
  obtain ⟨incident, hfile, hlen, hlt⟩ := fileEdges_spec (n := n) (m := edges.length)
    edges.zipIdx
    (by
      rintro ⟨edge, i⟩ hp
      have hi := List.mk_mem_zipIdx_iff_getElem?.1 hp
      exact ⟨hbounds edge (List.mem_of_getElem? hi), (List.getElem?_eq_some_iff.1 hi).1⟩)
    (List.replicate n []) List.length_replicate
    (by
      intro v eid hmem
      rw [getD_replicate] at hmem
      cases hmem)
  have htop : ∀ v, (VisitState.new n edges.length).number.getD v ⊤ = ⊤ :=
    fun v => getD_replicate n v ⊤
  obtain ⟨dfs, hvisit, hdfs, -⟩ := visit_spec hbounds hlen hlt (n + 1)
    (new_visited n edges.length) hroot (htop root)
    (by
      refine Nat.le_trans (Finset.card_le_card (Finset.filter_subset _ _)) ?_
      rw [Finset.card_range]
      exact Nat.le_succ n)
  have hnew := new_bracketed hbounds hdfs hlen hlt
  obtain ⟨r, s, edges', hloop, hs, hle⟩ := bracketLoop_spec hdfs dfs.preorder.reverse
    (fun v hv => hdfs.preorder_lt v (List.mem_reverse.1 hv)) (Nat.le_refl _) hnew
  simp only [bracketClasses, hfile, Bind.bind, Except.bind, hvisit, hloop]
  cases r with
  | false =>
      refine ⟨none, rfl, ?_⟩
      intro classes hclasses
      cases hclasses
  | true =>
      refine ⟨_, rfl, ?_⟩
      intro classes hclasses
      obtain rfl := Option.some.inj hclasses
      rw [List.length_take, hs.classes_length]
      exact Nat.min_eq_left hle

end Sese
end Jstd
