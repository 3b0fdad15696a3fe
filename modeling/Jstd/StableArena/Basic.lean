import Jstd.Foundation.Method
import Jstd.Identifier

/-!
# StableArena — dense payload storage with stable identifiers

The model of `stable_arena.rs`: payloads sit densely in `values`, `slotIds` names the identifier
each slot belongs to, and `locations` maps an issued index to its slot, or to `DEAD`.

Vectors are lists and memory is unbounded, so capacities (`capacity`, `structural_bytes`) are not
part of the state and `shrink_to_fit` leaves it as it is.  The release profile is modelled:
`remove`'s `debug_assert_eq!` is compiled out.  A mutable borrow is a call that takes the write the
caller performs through it.
-/

namespace Jstd

open Foundation

/-- The location of an issued identifier whose payload is gone. -/
def DEAD : Nat := usizeMax

/-- Stable logical identifiers over compact, dense payload storage. -/
structure StableArena (Id T : Type) where
  values : List T
  slotIds : List Id
  locations : List Nat
  deriving DecidableEq, Repr

namespace StableArena

variable {Id T : Type} [Identifier Id]

/-- `Default`: the empty arena. -/
def empty : StableArena Id T :=
  { values := [], slotIds := [], locations := [] }

/-- `Vec::swap_remove`: take element `i` out and let the last element fill its place. -/
def swapRemove {α : Type} (xs : List α) (i : Nat) : Except Panic (α × List α) :=
  match xs[i]?, xs.getLast? with
  | some x, some last => .ok (x, (xs.set i last).dropLast)
  | _, _ => .error .indexOutOfBounds

def len (self : StableArena Id T) : Nat :=
  self.values.length

def issuedLen (self : StableArena Id T) : Nat :=
  self.locations.length

def isEmpty (self : StableArena Id T) : Bool :=
  self.values.isEmpty

def liveSlot (self : StableArena Id T) (id : Id) : Option Nat :=
  match self.locations[intoUsize id]? with
  | some slot => if slot ≠ DEAD then some slot else none
  | none => none

def contains (self : StableArena Id T) (id : Id) : Bool :=
  (self.liveSlot id).isSome

def get (self : StableArena Id T) (id : Id) : Except Panic (Option (Identified Id T)) :=
  match self.liveSlot id with
  | none => .ok none
  | some slot => do
      let value ← Jstd.index self.values slot
      return some ⟨id, value⟩

/-- `Index::index`. -/
def index (self : StableArena Id T) (id : Id) : Except Panic T := do
  match ← self.get id with
  | some entry => return entry.inner
  | none =>
      throw (.message s!"StableArena index: dead or unknown id {intoUsize id} (issued {self.issuedLen}, live {self.len})")

/-- Entries in dense physical order; `iter_mut` and `into_iter` visit the same ones. -/
def iter (self : StableArena Id T) : List (Identified Id T) :=
  List.zipWith Identified.mk self.slotIds self.values

/-- `values.push(value)`, `slot_ids.push(id)`, `locations.push(slot)`. -/
def append (self : StableArena Id T) (value : T) (id : Id) (slot : Nat) : StableArena Id T :=
  { values := self.values ++ [value]
    slotIds := self.slotIds ++ [id]
    locations := self.locations ++ [slot] }

def push (value : T) : Method Panic (StableArena Id T) Id := do
  let self ← MonadState.get
  let raw := self.locations.length
  Method.require (raw < DEAD) (.message "StableArena identifier space exhausted")
  let id : Id := fromUsize raw
  Method.require (intoUsize id = raw)
    (.message "StableArena identifier does not round-trip through its backing type")
  let slot := self.values.length
  Method.require (slot < DEAD) (.message "StableArena physical slot space exhausted")
  modify fun self => self.append value id slot
  return id

/-- `get_mut`, with the write the caller performs through the borrow. -/
def getMut (id : Id) (write : T → T) :
    Method Panic (StableArena Id T) (Option (Identified Id T)) := do
  let self ← MonadState.get
  match self.liveSlot id with
  | none => return none
  | some slot => do
      let value ← Jstd.index self.values slot
      let values ← setIndex self.values slot (write value)
      modify fun self => { self with values := values }
      return some ⟨id, value⟩

/-- `IndexMut::index_mut`, with the write the caller performs through the borrow. -/
def indexMut (id : Id) (write : T → T) : Method Panic (StableArena Id T) T := do
  let self ← MonadState.get
  match ← getMut id write with
  | some entry => return entry.inner
  | none =>
      throw (.message s!"StableArena mutable index: dead or unknown id {intoUsize id} (issued {self.issuedLen}, live {self.len})")

def remove (id : Id) : Method Panic (StableArena Id T) T := do
  let raw := intoUsize id
  let self ← MonadState.get
  match self.liveSlot id with
  | none =>
      throw (.message s!"StableArena::remove: dead or unknown id {raw} (issued {self.issuedLen}, live {self.len})")
  | some slot => do
      let locations ← setIndex self.locations raw DEAD
      modify fun self => { self with locations := locations }
      let (removed, values) ← swapRemove self.values slot
      modify fun self => { self with values := values }
      let (_removedId, slotIds) ← swapRemove self.slotIds slot
      modify fun self => { self with slotIds := slotIds }
      -- The entry that `swap_remove` moved into the hole gets its location repaired.
      if slot < values.length then
        let movedId ← Jstd.index slotIds slot
        let locations ← setIndex locations (intoUsize movedId) slot
        modify fun self => { self with locations := locations }
      return removed

def clear : Method Panic (StableArena Id T) Unit :=
  modify fun _ => empty

def shrinkToFit : Method Panic (StableArena Id T) Unit :=
  pure ()

/-- One round of `truncate_issued`'s removal loop. -/
def removeIfLive (raw : Nat) : Method Panic (StableArena Id T) Unit := do
  let self ← MonadState.get
  let id : Id := fromUsize raw
  if self.contains id then
    let _ ← remove id
  return ()

/-- `(issued..len).rev()`. -/
def newestFirst (issued len : Nat) : List Nat :=
  (List.range' issued (len - issued)).reverse

def truncateIssued (issued : Nat) : Method Panic (StableArena Id T) Unit := do
  let self ← MonadState.get
  Method.forEach removeIfLive (newestFirst issued self.locations.length)
  modify fun self => { self with locations := self.locations.take issued }

end StableArena
end Jstd
