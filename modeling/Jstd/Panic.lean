import Jstd.Foundation.HashMap

/-!
# Panic — how a call of the crate can fail

Every place where the source can panic is a value of `Panic`.  Panics that carry a text in the
source carry it here; the texts that format an identifier print its raw index.

`outOfFuel` is the one value no run of the source has: it marks a loop of the model whose fuel ran
out, so a theorem that a call returns also says that its loops end.
-/

namespace Jstd

/-- Why a call did not return. -/
inductive Panic
  /-- `assert!`, `panic!`, `unreachable!` or `expect` with its text. -/
  | message (text : String)
  /-- A slice or vector index past the end. -/
  | indexOutOfBounds
  /-- A map indexed at a key it does not hold. -/
  | missingKey
  /-- `Option::unwrap` on `None`. -/
  | unwrapNone
  /-- A vector of more than `isize::MAX` bytes. -/
  | capacityOverflow
  /-- A loop of the model did not finish. -/
  | outOfFuel
  deriving DecidableEq, Repr

/-- `usize::MAX` on the 64-bit targets the crate is built for. -/
def usizeMax : Nat := 2 ^ 64 - 1

/-- `isize::MAX`, the largest size of an object in bytes. -/
def isizeMax : Nat := 2 ^ 63 - 1

/-- `size_of::<usize>()`. -/
def usizeBytes : Nat := 8

/-- `vec![x; n]` with elements of `size` bytes, which asks for all of its memory at once. -/
def vecOf {α : Type} (size : Nat) (x : α) (n : Nat) : Except Panic (List α) :=
  if n * size ≤ isizeMax then .ok (List.replicate n x) else .error .capacityOverflow

theorem vecOf_of_le {α : Type} {size n : Nat} (h : n * size ≤ isizeMax) (x : α) :
    vecOf size x n = .ok (List.replicate n x) := by
  simp [vecOf, h]

theorem vecOf_of_lt {α : Type} {size n : Nat} (h : isizeMax < n * size) (x : α) :
    vecOf size x n = .error .capacityOverflow := by
  simp [vecOf, Nat.not_le_of_lt h]

/-- `xs[i]` on a vector or a slice. -/
def index {α : Type} (xs : List α) (i : Nat) : Except Panic α :=
  match xs[i]? with
  | some x => .ok x
  | none => .error .indexOutOfBounds

theorem index_of_getElem? {α : Type} {xs : List α} {i : Nat} {x : α} (h : xs[i]? = some x) :
    index xs i = .ok x := by
  simp [index, h]

theorem index_of_none {α : Type} {xs : List α} {i : Nat} (h : xs[i]? = none) :
    index xs i = .error .indexOutOfBounds := by
  simp [index, h]

/-- `xs[i] = x` on a vector or a slice. -/
def setIndex {α : Type} (xs : List α) (i : Nat) (x : α) : Except Panic (List α) :=
  if i < xs.length then .ok (xs.set i x) else .error .indexOutOfBounds

theorem setIndex_of_lt {α : Type} {xs : List α} {i : Nat} (h : i < xs.length) (x : α) :
    setIndex xs i x = .ok (xs.set i x) := by
  simp [setIndex, h]

/-- An access in bounds, as a read with a default. -/
theorem index_of_lt {α : Type} {xs : List α} {i : Nat} (h : i < xs.length) (d : α) :
    index xs i = .ok (xs.getD i d) := by
  simp [index, List.getD_eq_getElem?_getD, List.getElem?_eq_getElem h]

theorem getD_set {α : Type} (xs : List α) (i j : Nat) (x d : α) :
    (xs.set i x).getD j d = if i = j ∧ i < xs.length then x else xs.getD j d := by
  simp only [List.getD_eq_getElem?_getD, List.getElem?_set]
  by_cases h : i = j
  · subst h
    by_cases hlt : i < xs.length
    · simp [hlt]
    · simp [hlt]
  · simp [h]

theorem getD_replicate {α : Type} (n i : Nat) (x : α) : (List.replicate n x).getD i x = x := by
  simp only [List.getD_eq_getElem?_getD, List.getElem?_replicate]
  split
  · rfl
  · rfl

/-- The index operator of a hash map, which panics on a missing key. -/
def indexMap {K V : Type} [DecidableEq K] (m : Foundation.HashMap K V) (k : K) : Except Panic V :=
  match m.get? k with
  | some v => .ok v
  | none => .error .missingKey

/-- `Option::unwrap`. -/
def unwrap {α : Type} : Option α → Except Panic α
  | some a => .ok a
  | none => .error .unwrapNone

/-- `Option::expect`. -/
def expect {α : Type} (text : String) : Option α → Except Panic α
  | some a => .ok a
  | none => .error (.message text)

/-! ## Iterator chains whose closure may panic -/

/-- `filter_map(f).collect()`. -/
def filterMapChecked {α β : Type} (f : α → Except Panic (Option β)) :
    List α → Except Panic (List β)
  | [] => .ok []
  | x :: xs => do
      let y ← f x
      let ys ← filterMapChecked f xs
      return y.toList ++ ys

theorem filterMapChecked_of_ok {α β : Type} {f : α → Except Panic (Option β)}
    {g : α → Option β} (xs : List α) (h : ∀ x ∈ xs, f x = .ok (g x)) :
    filterMapChecked f xs = .ok (xs.filterMap g) := by
  induction xs with
  | nil => rfl
  | cons x xs ih =>
      rw [filterMapChecked, h x List.mem_cons_self, ih fun y hy => h y (List.mem_cons_of_mem x hy)]
      cases hg : g x with
      | none =>
          rw [List.filterMap_cons_none hg]
          rfl
      | some y =>
          rw [List.filterMap_cons_some hg]
          rfl

/-- `all(p)`, which stops at the first element that fails. -/
def allChecked {α : Type} (p : α → Except Panic Bool) : List α → Except Panic Bool
  | [] => .ok true
  | x :: xs => do
      let holds ← p x
      if holds then allChecked p xs else return false

theorem allChecked_of_ok {α : Type} {p : α → Except Panic Bool} {q : α → Bool} (xs : List α)
    (h : ∀ x ∈ xs, p x = .ok (q x)) : allChecked p xs = .ok (xs.all q) := by
  induction xs with
  | nil => rfl
  | cons x xs ih =>
      rw [allChecked, h x List.mem_cons_self, List.all_cons]
      show (if q x = true then allChecked p xs else .ok false) = _
      rw [ih fun y hy => h y (List.mem_cons_of_mem x hy)]
      cases q x with
      | true => rfl
      | false => rfl

end Jstd
