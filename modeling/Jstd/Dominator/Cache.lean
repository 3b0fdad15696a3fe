import Jstd.Dominator.Tree
import Jstd.Foundation.OnceCell
import Jstd.Foundation.Simulation

/-!
# The dominator tree with its cells

The source computes the dominator sets, the children map and the frontier when they are first asked
for, and keeps them.  Here the tree has the three cells, and a run asks it any questions in any
order.  No answer depends on what was asked before: each is what the graph says, and the cells only
ever fill (`Sound.run`).
-/

namespace Jstd
namespace Dominator

open Foundation

variable {N : Type} [DecidableEq N]

/-! ## As the source keeps it -/

/-- All fields of `DominatorTree`; a cell is empty until it is asked for. -/
structure CachedTree (N : Type) extends DominatorTree N where
  dominatorSets : Option (HashMap N (Finset N))
  children : Option (HashMap N (List N))
  frontier : Option (Frontier N)

namespace CachedTree

/-- As `compute_dominators` returns it: three times `OnceCell::new()`. -/
def new (tree : DominatorTree N) : CachedTree N :=
  { tree with dominatorSets := none, children := none, frontier := none }

def dominatorSetsMap (fuel : Nat) (order : HashOrder N) :
    Method Panic (CachedTree N) (HashMap N (Finset N)) :=
  OnceCell.getOrInit dominatorSets (fun self sets => { self with dominatorSets := some sets })
    fun self => computeDominatorSets fuel order self.idom self.root

def childrenMap (order : HashOrder N) : Method Panic (CachedTree N) (HashMap N (List N)) :=
  OnceCell.getOrInit children (fun self map => { self with children := some map })
    fun self => .ok (self.toDominatorTree.childrenMap order)

def dominatorFrontier (fuel : Nat) (order : HashOrder N) :
    Method Panic (CachedTree N) (Frontier N) :=
  OnceCell.getOrInit frontier (fun self frontier => { self with frontier := some frontier })
    fun self => self.toDominatorTree.dominatorFrontier fuel order

def childrenOf (order : HashOrder N) (node : N) : Method Panic (CachedTree N) (List N) := do
  let map ← childrenMap order
  return (map.get? node).getD []

def dominates (fuel : Nat) (order : HashOrder N) (dominator node : N) :
    Method Panic (CachedTree N) Bool := do
  let sets ← dominatorSetsMap fuel order
  return (sets.get? node).any fun set => decide (dominator ∈ set)

def dominatorSet (fuel : Nat) (order : HashOrder N) (node : N) :
    Method Panic (CachedTree N) (Option (Finset N)) := do
  let sets ← dominatorSetsMap fuel order
  return sets.get? node

end CachedTree

/-! ## What the cells may hold -/

def SetsRight (g : Cfg N) (start : N) (sets : HashMap N (Finset N)) : Prop :=
  (∀ n, g.Reachable start n → ∃ set, sets.get? n = some set ∧
    ∀ d, d ∈ set ↔ Dominates g.Edge start d n) ∧
  ∀ n, ¬ g.Reachable start n → sets.get? n = none

def ChildrenRight (g : Cfg N) (start : N) (map : HashMap N (List N)) : Prop :=
  ∀ n, ((map.get? n).getD []).Nodup ∧ ∀ c, c ∈ (map.get? n).getD [] ↔
    g.Reachable start c ∧ c ≠ start ∧ IsIdom g.Edge start n c

def FrontierRight (g : Cfg N) (start : N) (f : Frontier N) : Prop :=
  (∀ n, n ∈ f.keys ↔ g.Reachable start n) ∧
    ∀ n y, Holds f n y ↔ g.Reachable start y ∧ y ≠ start ∧ InFrontier g.Edge start n y

/-! ## Questions and answers -/

/-- The methods of the tree; where a hash map may be read, its order is part of the question. -/
inductive Query (N : Type)
  | root
  | immediateDominator (node : N)
  | childrenOf (order : HashOrder N) (node : N)
  | dominates (order : HashOrder N) (dominator node : N)
  | dominatorSet (order : HashOrder N) (node : N)
  | dominatorFrontier (order : HashOrder N)

inductive Answer (N : Type)
  | node (n : N)
  | idom (d : Option N)
  | nodes (ns : List N)
  | verdict (b : Bool)
  | set (s : Option (Finset N))
  | frontier (f : Frontier N)

namespace Query

def ask (fuel : Nat) : Query N → Method Panic (CachedTree N) (Answer N)
  | root => do
      let self ← get
      return .node self.root
  | immediateDominator node => do
      let self ← get
      return .idom (self.immediateDominator node)
  | childrenOf order node => .nodes <$> CachedTree.childrenOf order node
  | dominates order dominator node => .verdict <$> CachedTree.dominates fuel order dominator node
  | dominatorSet order node => .set <$> CachedTree.dominatorSet fuel order node
  | dominatorFrontier order => .frontier <$> CachedTree.dominatorFrontier fuel order

/-- What the fields and the cells say, if the cell is full. -/
def read (self : CachedTree N) : Query N → Option (Answer N)
  | root => some (.node self.root)
  | immediateDominator node => some (.idom (self.immediateDominator node))
  | childrenOf _ node => self.children.map fun map => .nodes ((map.get? node).getD [])
  | dominates _ dominator node => self.dominatorSets.map fun sets =>
      .verdict ((sets.get? node).any fun set => decide (dominator ∈ set))
  | dominatorSet _ node => self.dominatorSets.map fun sets => .set (sets.get? node)
  | dominatorFrontier _ => self.frontier.map .frontier

/-- The same question, whatever the hash order it is asked under. -/
def Same : Query N → Query N → Prop
  | root, root => True
  | immediateDominator n, immediateDominator n' => n = n'
  | childrenOf _ n, childrenOf _ n' => n = n'
  | dominates _ d n, dominates _ d' n' => d = d' ∧ n = n'
  | dominatorSet _ n, dominatorSet _ n' => n = n'
  | dominatorFrontier _, dominatorFrontier _ => True
  | _, _ => False

/-- The answer by the definitions, over the walks of the graph. -/
def Truthful (g : Cfg N) (start : N) : Query N → Answer N → Prop
  | root, .node n => n = start
  | immediateDominator n, .idom answer => ∀ d, answer = some d ↔
      g.Reachable start n ∧ n ≠ start ∧ IsIdom g.Edge start d n
  | childrenOf _ n, .nodes ns => ns.Nodup ∧ ∀ c, c ∈ ns ↔
      g.Reachable start c ∧ c ≠ start ∧ IsIdom g.Edge start n c
  | dominates _ d n, .verdict b => b = true ↔ g.Reachable start n ∧ Dominates g.Edge start d n
  | dominatorSet _ n, .set none => ¬ g.Reachable start n
  | dominatorSet _ n, .set (some s) => g.Reachable start n ∧
      ∀ d, d ∈ s ↔ Dominates g.Edge start d n
  | dominatorFrontier _, .frontier f => FrontierRight g start f
  | _, _ => False

end Query

variable {g : Cfg N} {start : N} {tree : DominatorTree N}

/-! ## The cells -/

/-- The fields are those of the computed tree, and a full cell holds what it should. -/
structure Sound (g : Cfg N) (start : N) (tree : DominatorTree N) (s : CachedTree N) : Prop where
  fields : s.toDominatorTree = tree
  sets : ∀ sets, s.dominatorSets = some sets → SetsRight g start sets
  children : ∀ map, s.children = some map → ChildrenRight g start map
  frontier : ∀ f, s.frontier = some f → FrontierRight g start f

/-- The cells of `s'` that were full in `s` are as they were. -/
structure Fills (s s' : CachedTree N) : Prop where
  fields : s'.toDominatorTree = s.toDominatorTree
  sets : ∀ sets, s.dominatorSets = some sets → s'.dominatorSets = some sets
  children : ∀ map, s.children = some map → s'.children = some map
  frontier : ∀ f, s.frontier = some f → s'.frontier = some f

namespace Fills

variable {s s₁ s₂ : CachedTree N}

omit [DecidableEq N] in
theorem refl (s : CachedTree N) : Fills s s :=
  ⟨rfl, fun _ h => h, fun _ h => h, fun _ h => h⟩

omit [DecidableEq N] in
theorem trans (h₁ : Fills s s₁) (h₂ : Fills s₁ s₂) : Fills s s₂ where
  fields := h₂.fields.trans h₁.fields
  sets sets h := h₂.sets sets (h₁.sets sets h)
  children map h := h₂.children map (h₁.children map h)
  frontier f h := h₂.frontier f (h₁.frontier f h)

/-- What could be read can still be read. -/
theorem read (h : Fills s s₁) {q : Query N} {a : Answer N} (hread : q.read s = some a) :
    q.read s₁ = some a := by
  have hroot : s₁.root = s.root := by rw [h.fields]
  have hidom : s₁.idom = s.idom := by rw [h.fields]
  cases q with
  | root => simpa [Query.read, hroot] using hread
  | immediateDominator n =>
      simpa [Query.read, DominatorTree.immediateDominator, hidom] using hread
  | childrenOf order n =>
      obtain ⟨map, hmap, rfl⟩ := Option.map_eq_some_iff.1 hread
      rw [Query.read, h.children map hmap]
      rfl
  | dominates order d n =>
      obtain ⟨sets, hsets, rfl⟩ := Option.map_eq_some_iff.1 hread
      rw [Query.read, h.sets sets hsets]
      rfl
  | dominatorSet order n =>
      obtain ⟨sets, hsets, rfl⟩ := Option.map_eq_some_iff.1 hread
      rw [Query.read, h.sets sets hsets]
      rfl
  | dominatorFrontier order =>
      obtain ⟨f, hf, rfl⟩ := Option.map_eq_some_iff.1 hread
      rw [Query.read, h.frontier f hf]
      rfl

end Fills

/-- A full cell says the same whatever the order. -/
theorem Query.Same.read_eq (s : CachedTree N) :
    ∀ {q q' : Query N}, q.Same q' → q'.read s = q.read s
  | .root, .root, _ => rfl
  | .immediateDominator _, .immediateDominator _, rfl => rfl
  | .childrenOf _ _, .childrenOf _ _, rfl => rfl
  | .dominates _ _ _, .dominates _ _ _, ⟨rfl, rfl⟩ => rfl
  | .dominatorSet _ _, .dominatorSet _ _, rfl => rfl
  | .dominatorFrontier _, .dominatorFrontier _, _ => rfl

/-- A question whose cell is full is answered from it, and changes nothing. -/
theorem Query.ask_of_read {s : CachedTree N} {fuel : Nat} {q : Query N} {a : Answer N}
    (h : q.read s = some a) : (q.ask fuel).run s = (.ok a, s) := by
  -- Two of the questions read a field; the others find their cell full.
  cases q with
  | root =>
      cases h
      rfl
  | immediateDominator n =>
      cases h
      rfl
  | childrenOf order n =>
      obtain ⟨map, hmap, rfl⟩ := Option.map_eq_some_iff.1 h
      have hcell : (CachedTree.childrenMap order).run s = (.ok map, s) :=
        OnceCell.getOrInit_full hmap
      rw [Query.ask, Method.run_map, CachedTree.childrenOf, Method.run_bind_of_ok hcell]
      rfl
  | dominates order d n =>
      obtain ⟨sets, hsets, rfl⟩ := Option.map_eq_some_iff.1 h
      have hcell : (CachedTree.dominatorSetsMap fuel order).run s = (.ok sets, s) :=
        OnceCell.getOrInit_full hsets
      rw [Query.ask, Method.run_map, CachedTree.dominates, Method.run_bind_of_ok hcell]
      rfl
  | dominatorSet order n =>
      obtain ⟨sets, hsets, rfl⟩ := Option.map_eq_some_iff.1 h
      have hcell : (CachedTree.dominatorSetsMap fuel order).run s = (.ok sets, s) :=
        OnceCell.getOrInit_full hsets
      rw [Query.ask, Method.run_map, CachedTree.dominatorSet, Method.run_bind_of_ok hcell]
      rfl
  | dominatorFrontier order =>
      obtain ⟨f, hf, rfl⟩ := Option.map_eq_some_iff.1 h
      have hcell : (CachedTree.dominatorFrontier fuel order).run s = (.ok f, s) :=
        OnceCell.getOrInit_full hf
      rw [Query.ask, Method.run_map, hcell]
      rfl

namespace Sound

variable {s : CachedTree N} {fuel : Nat}

omit [DecidableEq N] in
theorem new [DecidableEq N] (tree : DominatorTree N) : Sound g start tree (.new tree) :=
  ⟨rfl, by simp [CachedTree.new], by simp [CachedTree.new], by simp [CachedTree.new]⟩

/-- What the cells say is the truth. -/
theorem truthful (h : Sound g start tree s) (htree : tree.Computed g start) {q : Query N}
    {a : Answer N} (hread : q.read s = some a) : q.Truthful g start a := by
  have hroot : s.root = tree.root := by rw [h.fields]
  have hidom : s.idom = tree.idom := by rw [h.fields]
  -- The fields are what the algorithm computed; of the cells `Sound` says the rest.
  cases q with
  | root =>
      cases hread
      exact hroot.trans htree.root_eq
  | immediateDominator n =>
      cases hread
      intro d
      rw [DominatorTree.immediateDominator, hidom]
      exact htree.idom_iff n d
  | childrenOf order n =>
      obtain ⟨map, hmap, rfl⟩ := Option.map_eq_some_iff.1 hread
      exact h.children map hmap n
  | dominates order d n =>
      obtain ⟨sets, hsets, rfl⟩ := Option.map_eq_some_iff.1 hread
      obtain ⟨hin, hout⟩ := h.sets sets hsets
      by_cases hn : g.Reachable start n
      · obtain ⟨set, hset, hmem⟩ := hin n hn
        simp [Query.Truthful, hset, hmem, hn]
      · simp [Query.Truthful, hout n hn, hn]
  | dominatorSet order n =>
      obtain ⟨sets, hsets, rfl⟩ := Option.map_eq_some_iff.1 hread
      obtain ⟨hin, hout⟩ := h.sets sets hsets
      by_cases hn : g.Reachable start n
      · obtain ⟨set, hset, hmem⟩ := hin n hn
        rw [hset]
        exact ⟨hn, hmem⟩
      · rw [hout n hn]
        exact hn
  | dominatorFrontier order =>
      obtain ⟨f, hf, rfl⟩ := Option.map_eq_some_iff.1 hread
      exact h.frontier f hf

/-! Each cell is filled with what it should hold, or was so already. -/

theorem dominatorSetsMap (h : Sound g start tree s) (htree : tree.Computed g start)
    (hfinite : {n | g.Reachable start n}.Finite) (hfuel : {n | g.Reachable start n}.ncard < fuel)
    (order : HashOrder N) :
    ∃ sets s', (CachedTree.dominatorSetsMap fuel order).run s = (.ok sets, s') ∧
      Sound g start tree s' ∧ Fills s s' ∧ s'.dominatorSets = some sets := by
  obtain ⟨sets, s', hrun, hP, hread, hs'⟩ := OnceCell.getOrInit_spec
    CachedTree.dominatorSets (fun self sets => { self with dominatorSets := some sets })
    (fun self => computeDominatorSets fuel order self.idom self.root) (P := SetsRight g start)
    (fun _ _ => rfl) h.sets (by
      intro _
      have hroot : s.root = tree.root := by rw [h.fields]
      have hidom : s.idom = tree.idom := by rw [h.fields]
      obtain ⟨sets, hsets, hin, hout⟩ := computeDominatorSets_spec htree hfinite hfuel order
      exact ⟨sets, by rw [hroot, hidom, hsets], hin, hout⟩)
  refine ⟨sets, s', hrun, ?_⟩
  rcases hs' with rfl | ⟨hempty, rfl⟩
  · exact ⟨h, .refl s', hread⟩
  · refine ⟨⟨h.fields, ?_, h.children, h.frontier⟩, ⟨rfl, ?_, fun _ h => h, fun _ h => h⟩, rfl⟩
    · rintro _ ⟨⟩
      exact hP
    · intro old hold
      rw [hempty] at hold
      cases hold

theorem childrenMap (h : Sound g start tree s) (htree : tree.Computed g start)
    (order : HashOrder N) :
    ∃ map s', (CachedTree.childrenMap order).run s = (.ok map, s') ∧
      Sound g start tree s' ∧ Fills s s' ∧ s'.children = some map := by
  obtain ⟨map, s', hrun, hP, hread, hs'⟩ := OnceCell.getOrInit_spec
    CachedTree.children (fun self map => { self with children := some map })
    (fun self => (.ok (self.toDominatorTree.childrenMap order) : Except Panic _))
    (P := ChildrenRight g start) (fun _ _ => rfl) h.children (by
      intro _
      refine ⟨_, rfl, fun n => ?_⟩
      rw [h.fields]
      refine ⟨tree.nodup_childrenOf order n, fun c => ?_⟩
      exact (tree.mem_childrenOf order).trans (htree.idom_iff c n))
  refine ⟨map, s', hrun, ?_⟩
  rcases hs' with rfl | ⟨hempty, rfl⟩
  · exact ⟨h, .refl s', hread⟩
  · refine ⟨⟨h.fields, h.sets, ?_, h.frontier⟩, ⟨rfl, fun _ h => h, ?_, fun _ h => h⟩, rfl⟩
    · rintro _ ⟨⟩
      exact hP
    · intro old hold
      rw [hempty] at hold
      cases hold

theorem dominatorFrontier (h : Sound g start tree s) (htree : tree.Computed g start)
    (hfinite : {n | g.Reachable start n}.Finite) (hfuel : {n | g.Reachable start n}.ncard < fuel)
    (order : HashOrder N) :
    ∃ f s', (CachedTree.dominatorFrontier fuel order).run s = (.ok f, s') ∧
      Sound g start tree s' ∧ Fills s s' ∧ s'.frontier = some f := by
  obtain ⟨f, s', hrun, hP, hread, hs'⟩ := OnceCell.getOrInit_spec
    CachedTree.frontier (fun self f => { self with frontier := some f })
    (fun self => self.toDominatorTree.dominatorFrontier fuel order) (P := FrontierRight g start)
    (fun _ _ => rfl) h.frontier (by
      intro _
      obtain ⟨f, hf, hkeys, hholds⟩ := dominatorFrontier_spec htree hfinite hfuel order
      exact ⟨f, by rw [h.fields, hf], hkeys, hholds⟩)
  refine ⟨f, s', hrun, ?_⟩
  rcases hs' with rfl | ⟨hempty, rfl⟩
  · exact ⟨h, .refl s', hread⟩
  · refine ⟨⟨h.fields, h.sets, h.children, ?_⟩, ⟨rfl, fun _ h => h, fun _ h => h, ?_⟩, rfl⟩
    · rintro _ ⟨⟩
      exact hP
    · intro old hold
      rw [hempty] at hold
      cases hold

/-- One question: the answer is what the cells say afterwards. -/
theorem ask (h : Sound g start tree s) (htree : tree.Computed g start)
    (hfinite : {n | g.Reachable start n}.Finite) (hfuel : {n | g.Reachable start n}.ncard < fuel)
    (q : Query N) :
    ∃ a s', (q.ask fuel).run s = (.ok a, s') ∧ Sound g start tree s' ∧ Fills s s' ∧
      q.read s' = some a := by
  -- The first two touch no cell; each of the others fills the one it reads, if that is empty.
  cases q with
  | root => exact ⟨_, s, rfl, h, .refl s, rfl⟩
  | immediateDominator n => exact ⟨_, s, rfl, h, .refl s, rfl⟩
  | childrenOf order n =>
      obtain ⟨map, s', hrun, hs', hfills, hcell⟩ := h.childrenMap htree order
      refine ⟨.nodes ((map.get? n).getD []), s', ?_, hs', hfills, by rw [Query.read, hcell]; rfl⟩
      rw [Query.ask, Method.run_map, CachedTree.childrenOf, Method.run_bind_of_ok hrun]
      rfl
  | dominates order d n =>
      obtain ⟨sets, s', hrun, hs', hfills, hcell⟩ := h.dominatorSetsMap htree hfinite hfuel order
      refine ⟨.verdict ((sets.get? n).any fun set => decide (d ∈ set)), s', ?_, hs', hfills,
        by rw [Query.read, hcell]; rfl⟩
      rw [Query.ask, Method.run_map, CachedTree.dominates, Method.run_bind_of_ok hrun]
      rfl
  | dominatorSet order n =>
      obtain ⟨sets, s', hrun, hs', hfills, hcell⟩ := h.dominatorSetsMap htree hfinite hfuel order
      refine ⟨.set (sets.get? n), s', ?_, hs', hfills, by rw [Query.read, hcell]; rfl⟩
      rw [Query.ask, Method.run_map, CachedTree.dominatorSet, Method.run_bind_of_ok hrun]
      rfl
  | dominatorFrontier order =>
      obtain ⟨f, s', hrun, hs', hfills, hcell⟩ := h.dominatorFrontier htree hfinite hfuel order
      refine ⟨.frontier f, s', ?_, hs', hfills, by rw [Query.read, hcell]; rfl⟩
      rw [Query.ask, Method.run_map, hrun]
      rfl

/-- A run of questions: all are answered, and each answer is still what the cells say at the end. -/
theorem run (htree : tree.Computed g start) (hfinite : {n | g.Reachable start n}.Finite)
    (hfuel : {n | g.Reachable start n}.ncard < fuel) (queries : List (Query N)) :
    ∀ s, Sound g start tree s → ∃ answers s',
      runOps (fun q => (Query.ask fuel q).run) queries s = (answers.map .ok, s') ∧
        Sound g start tree s' ∧ Fills s s' ∧
        List.Forall₂ (fun q a => q.read s' = some a) queries answers := by
  induction queries with
  | nil =>
      intro s h
      exact ⟨[], s, rfl, h, .refl s, .nil⟩
  | cons q queries ih =>
      intro s h
      obtain ⟨a, s₁, hask, h₁, hfills, hread⟩ := h.ask htree hfinite hfuel q
      obtain ⟨answers, s', hrun, h', hfills', hall⟩ := ih s₁ h₁
      refine ⟨a :: answers, s', ?_, h', hfills.trans hfills', .cons (hfills'.read hread) hall⟩
      rw [runOps_cons, hask, hrun]
      rfl

end Sound

/-- Any questions in any order, on the tree of any finite graph: nothing panics and every answer is
true of the graph.  Between two points of a run the cells only fill.  Whatever was asked has its cell
full, and the same question, under any hash order and however many others came in between, gets the
very answer it got and changes nothing. -/
theorem computeDominators_answers (g : Cfg N) (root : N)
    (hfinite : {n | g.Reachable root n}.Finite) :
    ∃ enough, ∀ fuel, enough ≤ fuel → ∃ tree, computeDominators fuel g root = .ok tree ∧
      ∀ queries more : List (Query N), ∃ answers further s s',
        runOps (fun q => (Query.ask fuel q).run) queries (.new tree) = (answers.map .ok, s) ∧
        runOps (fun q => (Query.ask fuel q).run) more s = (further.map .ok, s') ∧
        s.toDominatorTree = tree ∧ Fills s s' ∧
        List.Forall₂ (Query.Truthful g root) (queries ++ more) (answers ++ further) ∧
        List.Forall₂ (fun q a => q.read s = some a) queries answers ∧
        List.Forall₂ (fun q a => ∀ q', q.Same q' → (q'.ask fuel).run s' = (.ok a, s'))
          queries answers := by
  obtain ⟨enough, h⟩ := computeDominators_spec g root hfinite
  refine ⟨enough + {n | g.Reachable root n}.ncard + 1, ?_⟩
  intro fuel hfuel
  obtain ⟨tree, hcompute, htree⟩ := h fuel (by omega)
  refine ⟨tree, hcompute, ?_⟩
  intro queries more
  -- The second part starts from the cells the first has filled.
  obtain ⟨answers, s, hrun, hsound, -, hall⟩ :=
    Sound.run htree hfinite (by omega : _ < fuel) queries (.new tree) (.new tree)
  obtain ⟨further, s', hrun', hsound', hfills, hall'⟩ :=
    Sound.run htree hfinite (by omega : _ < fuel) more s hsound
  refine ⟨answers, further, s, s', hrun, hrun', hsound.fields, hfills, ?_, hall, ?_⟩
  · exact List.rel_append (hall.imp fun _ _ hread => hsound.truthful htree hread)
      (hall'.imp fun _ _ hread => hsound'.truthful htree hread)
  -- What the second part found full it has left as it was.
  · refine hall.imp fun q a hread q' hsame => Query.ask_of_read ?_
    rw [hsame.read_eq s']
    exact hfills.read hread

theorem computeDominators_answers_diamond :
    ∃ enough, ∀ fuel, enough ≤ fuel → ∃ tree, computeDominators fuel diamond 0 = .ok tree ∧
      ∀ queries more : List (Query Nat), ∃ answers further s s',
        runOps (fun q => (Query.ask fuel q).run) queries (.new tree) = (answers.map .ok, s) ∧
        runOps (fun q => (Query.ask fuel q).run) more s = (further.map .ok, s') ∧
        s.toDominatorTree = tree ∧ Fills s s' ∧
        List.Forall₂ (Query.Truthful diamond 0) (queries ++ more) (answers ++ further) ∧
        List.Forall₂ (fun q a => q.read s = some a) queries answers ∧
        List.Forall₂ (fun q a => ∀ q', q.Same q' → (q'.ask fuel).run s' = (.ok a, s'))
          queries answers :=
  computeDominators_answers diamond 0 ((Set.finite_Iic 3).subset fun _ h => diamond_reachable_le h)

end Dominator
end Jstd
