import Mathlib.Data.Finmap
import Jstd.Foundation.Method
import Jstd.Identifier

/-!
# Registry — a typed vector over doubling chunks

The model of `registry.rs`: element `n` lives in chunk `k = floor(log2(n + 1))` at offset
`n + 1 - 2^k`, so chunk `k` has room for `2^k` elements and never moves them.

`locate` follows the release profile, where arithmetic on `usize` and `u32` wraps; the flag `debug`
says whether `debug_assert!` is compiled in.  A mutable borrow is the place (chunk and offset) it
points to.  Allocation always succeeds.
-/

namespace Jstd

open Foundation

/-- One `Vec<T>` of the store, with the capacity it was given. -/
structure Chunk (T : Type) where
  capacity : Nat
  elems : List T
  deriving DecidableEq, Repr

namespace Chunk

variable {T : Type}

/-- `Vec::with_capacity`. -/
def withCapacity (capacity : Nat) : Chunk T :=
  { capacity := capacity, elems := [] }

/-- `Vec::push`; a full vector is reallocated. -/
def push (self : Chunk T) (e : T) : Chunk T :=
  { capacity := Nat.max self.capacity (self.elems.length + 1), elems := self.elems ++ [e] }

/-- `Vec::truncate`. -/
def truncate (self : Chunk T) (len : Nat) : Chunk T :=
  { self with elems := self.elems.take len }

end Chunk

/-- A strongly typed vector; `Id` is the phantom type of its indices. -/
structure Registry (Id T : Type) where
  chunks : List (Chunk T)
  len : Nat
  deriving DecidableEq, Repr

/-- `usize::leading_zeros`. -/
def leadingZeros (m : Nat) : Nat :=
  if m = 0 then 64 else 63 - Nat.log2 m

/-- `(chunk, offset)` for global index `n`. -/
def locate (n : Nat) : Nat × Nat :=
  let m := (n + 1) % 2 ^ 64
  let k := (2 ^ 32 + 63 - leadingZeros m) % 2 ^ 32
  (k, (m + 2 ^ 64 - 2 ^ (k % 64)) % 2 ^ 64)

namespace Registry

variable {Id T : Type}

/-- `Default`: no chunk and no element. -/
def empty : Registry Id T :=
  { chunks := [], len := 0 }

/-- `chunks.iter().flatten()`. -/
def flat (self : Registry Id T) : List T :=
  self.chunks.flatMap Chunk.elems

def isEmpty (self : Registry Id T) : Bool :=
  self.len == 0

section

variable [Identifier Id]

def push (e : T) : Method Panic (Registry Id T) Id := do
  let self ← get
  let n := self.len
  let (k, offset) := locate n
  if offset = 0 ∧ self.chunks.length = k then
    modify fun self => { self with chunks := self.chunks ++ [Chunk.withCapacity (2 ^ k)] }
  let self ← get
  let chunk ← index self.chunks k
  modify fun self => { self with chunks := self.chunks.set k (chunk.push e) }
  modify fun self => { self with len := self.len + 1 }
  return fromUsize n

end

/-- The loop of `truncate`, entered with `self.len` at the given value. -/
def truncateFrom (len : Nat) : Nat → Method Panic (Registry Id T) Unit
  | 0 => pure ()
  | last + 1 =>
      if last + 1 > len then do
        let (k, offset) := locate last
        let self ← get
        let chunk ← index self.chunks k
        modify fun self => { self with chunks := self.chunks.set k (chunk.truncate offset) }
        modify fun self => { self with len := self.len - 1 }
        truncateFrom len last
      else pure ()

def truncate (len : Nat) : Method Panic (Registry Id T) Unit := do
  let self ← get
  truncateFrom len self.len

/-- The place of element `n`, checked as `at` and `at_mut` check it. -/
def place (debug : Bool) (self : Registry Id T) (n : Nat) : Except Panic (Nat × Nat) := do
  if debug && !decide (n < self.len) then
    throw (.message s!"registry index {n} out of bounds for length {self.len}")
  let (k, offset) := locate n
  let chunk ← index self.chunks k
  let _ ← index chunk.elems offset
  return (k, offset)

/-- Read through a borrow. -/
def readPlace (self : Registry Id T) (p : Nat × Nat) : Except Panic T := do
  let chunk ← index self.chunks p.1
  index chunk.elems p.2

/-- Write through a mutable borrow. -/
def writePlace (write : T → T) (p : Nat × Nat) : Method Panic (Registry Id T) T := do
  let self ← get
  let chunk ← index self.chunks p.1
  let value ← index chunk.elems p.2
  modify fun self =>
    { self with
      chunks := self.chunks.set p.1 { chunk with elems := chunk.elems.set p.2 (write value) } }
  return value

/-- `at`. -/
def readAt (debug : Bool) (self : Registry Id T) (n : Nat) : Except Panic T := do
  let p ← place debug self n
  readPlace self p

/-- `at_mut`, with the write performed through the borrow; returns the value it overwrites. -/
def writeAt (debug : Bool) (n : Nat) (write : T → T) : Method Panic (Registry Id T) T := do
  let self ← get
  let p ← place debug self n
  writePlace write p

section

variable [Identifier Id]

def replace (debug : Bool) (id : Id) (value : T) : Method Panic (Registry Id T) T :=
  writeAt debug (intoUsize id) fun _ => value

def get (debug : Bool) (self : Registry Id T) (id : Id) : Except Panic (Identified Id T) := do
  let value ← readAt debug self (intoUsize id)
  return ⟨id, value⟩

/-- `Index::index`. -/
def index (debug : Bool) (self : Registry Id T) (id : Id) : Except Panic T :=
  readAt debug self (intoUsize id)

/-- `get_mut`, with the write performed through the borrow. -/
def getMut (debug : Bool) (id : Id) (write : T → T) :
    Method Panic (Registry Id T) (Identified Id T) := do
  let value ← writeAt debug (intoUsize id) write
  return ⟨id, value⟩

/-- `IndexMut::index_mut`, with the write performed through the borrow. -/
def indexMut (debug : Bool) (id : Id) (write : T → T) : Method Panic (Registry Id T) T :=
  writeAt debug (intoUsize id) write

/-- Number the items of a flattened iterator. -/
def numbered {α : Type} (items : List α) : List (Identified Id α) :=
  items.zipIdx.map fun (item, index) => ⟨fromUsize index, item⟩

def iter (self : Registry Id T) : List (Identified Id T) :=
  numbered self.flat

/-- `IntoIterator::into_iter` on the registry itself, which `IntoIter` numbers anew. -/
def intoIter (self : Registry Id T) : List (Identified Id T) :=
  numbered self.flat

/-- `chunks.iter_mut().flatten()`: the places of all elements, in order. -/
def places (self : Registry Id T) : List (Nat × Nat) :=
  self.chunks.zipIdx.flatMap fun (chunk, k) => (List.range chunk.elems.length).map (k, ·)

def iterMut (self : Registry Id T) : List (Identified Id (Nat × Nat)) :=
  numbered self.places

/-- The map of requested indices to positions, built by the first loop of `select_mut`. -/
def wanted (self : Registry Id T) :
    List Id → Nat → Finmap (fun _ : Nat => Nat) → Except Panic (Finmap fun _ : Nat => Nat)
  | [], _, want => .ok want
  | id :: ids, pos, want =>
      let n := intoUsize id
      if n < self.len then
        match want.lookup n with
        | some _ => .error (.message s!"select_mut: duplicate id index {n}")
        | none => wanted self ids (pos + 1) (want.insert n pos)
      else .error (.message s!"select_mut: id index {n} out of bounds (len {self.len})")

/-- The pass over `iter_mut` that routes each place to its requested position. -/
def route (want : Finmap fun _ : Nat => Nat) :
    List (Identified Id (Nat × Nat)) → List (Option (Nat × Nat)) →
      Except Panic (List (Option (Nat × Nat)))
  | [], slots => .ok slots
  | item :: items, slots =>
      match want.lookup (intoUsize item.id) with
      | some pos =>
          match setIndex slots pos (some item.inner) with
          | .ok slots => route want items slots
          | .error e => .error e
      | none => route want items slots

/-- `slots.into_iter().map(expect).collect()`. -/
def expectAll : List (Option (Nat × Nat)) → Except Panic (List (Nat × Nat))
  | [] => .ok []
  | slot :: slots => do
      let p ← expect "select_mut: requested id had no backing slot" slot
      let ps ← expectAll slots
      return p :: ps

/-- `select_mut`: the places of the requested elements, in the caller's order. -/
def selectMut (self : Registry Id T) (ids : List Id) : Except Panic (List (Nat × Nat)) := do
  let want ← wanted self ids 0 ∅
  let slots ← route want self.iterMut (List.replicate ids.length none)
  expectAll slots

/-- Writes through a list of borrows, the `i`-th with `write i`; returns what they overwrite. -/
def writePlaces (write : Nat → T → T) :
    List (Nat × Nat) → Nat → Method Panic (Registry Id T) (List T)
  | [], _ => pure []
  | p :: ps, i => do
      let value ← writePlace (write i) p
      let values ← writePlaces write ps (i + 1)
      return value :: values

/-- `FromIterator::from_iter`. -/
def fromIter (items : List T) : Except Panic (Registry Id T) :=
  match (Method.forEach (fun e => do let _ ← push e) items).run (empty : Registry Id T) with
  | (.ok _, reg) => .ok reg
  | (.error e, _) => .error e

/-- `Clone::clone`: rebuild through `push`. -/
def clone (self : Registry Id T) : Except Panic (Registry Id T) :=
  fromIter self.flat

end

/-- `Serialize::serialize`: the length given up front, and the sequence of elements. -/
def serialize (self : Registry Id T) : Nat × List T :=
  (self.len, self.flat)

/-- `PartialEq::eq`. -/
def eq [DecidableEq T] (self other : Registry Id T) : Bool :=
  self.len == other.len && self.flat == other.flat

end Registry
end Jstd
