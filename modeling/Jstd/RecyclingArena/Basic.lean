import Jstd.Foundation.Method
import Jstd.Identifier

/-!
# RecyclingArena — a slab whose removed slots are reused

The model of `recycling_arena.rs`: vacant slots are threaded into an intrusive free list through
the very vector that holds the payloads, and the next insertion takes the head of that list.

As for `StableArena`, vectors are lists, capacities are not part of the state, and a mutable borrow
is a call that takes the write performed through it.
-/

namespace Jstd

open Foundation

/-- One physical slot. -/
inductive Slot (Id T : Type)
  | live (value : T)
  | free (next : Option Id)
  deriving DecidableEq, Repr

/-- The payload of a slot, if it is live. -/
def Slot.payload {Id T : Type} : Slot Id T → Option T
  | .live value => some value
  | .free _ => none

/-- A slab with an intrusive free list. -/
structure RecyclingArena (Id T : Type) where
  slots : List (Slot Id T)
  free : Option Id
  live : Nat
  deriving DecidableEq, Repr

namespace RecyclingArena

variable {Id T : Type} [Identifier Id]

/-- `Default`: the empty arena. -/
def empty : RecyclingArena Id T :=
  { slots := [], free := none, live := 0 }

def len (self : RecyclingArena Id T) : Nat :=
  self.live

def isEmpty (self : RecyclingArena Id T) : Bool :=
  self.live == 0

def contains (self : RecyclingArena Id T) (id : Id) : Bool :=
  match self.slots[intoUsize id]? with
  | some (.live _) => true
  | _ => false

def get (self : RecyclingArena Id T) (id : Id) : Option (Identified Id T) :=
  match self.slots[intoUsize id]? with
  | some (.live value) => some ⟨id, value⟩
  | _ => none

/-- `Index::index`. -/
def index (self : RecyclingArena Id T) (id : Id) : Except Panic T :=
  match self.get id with
  | some entry => .ok entry.inner
  | none => .error (.message s!"arena slot {intoUsize id} is free")

/-- `enumerate().filter_map(..)` over the slots. -/
def iter (self : RecyclingArena Id T) : List (Identified Id T) :=
  self.slots.zipIdx.filterMap fun (slot, raw) =>
    match slot with
    | .live value => some ⟨fromUsize raw, value⟩
    | .free _ => none

def push (value : T) : Method Panic (RecyclingArena Id T) Id := do
  let self ← MonadState.get
  let id ← (match self.free with
    | some id => do
        match ← Jstd.index self.slots (intoUsize id) with
        | .live _ =>
            throw (.message s!"arena slot {intoUsize id} is on the free list but live")
        | .free next => do
            modify fun self => { self with free := next }
            modify fun self => { self with slots := self.slots.set (intoUsize id) (.live value) }
            return id
    | none => do
        let raw := self.slots.length
        let id : Id := fromUsize raw
        Method.require (intoUsize id = raw)
          (.message "RecyclingArena identifier space exhausted")
        modify fun self => { self with slots := self.slots ++ [.live value] }
        return id)
  modify fun self => { self with live := self.live + 1 }
  return id

def remove (id : Id) : Method Panic (RecyclingArena Id T) T := do
  let self ← MonadState.get
  match ← Jstd.index self.slots (intoUsize id) with
  | .free _ => throw (.message s!"arena slot {intoUsize id} is already free")
  | .live value => do
      modify fun self => { self with slots := self.slots.set (intoUsize id) (.free self.free) }
      modify fun self => { self with free := some id }
      modify fun self => { self with live := self.live - 1 }
      return value

/-- `get_mut`, with the write the caller performs through the borrow. -/
def getMut (id : Id) (write : T → T) :
    Method Panic (RecyclingArena Id T) (Option (Identified Id T)) := do
  let self ← MonadState.get
  match self.slots[intoUsize id]? with
  | some (.live value) => do
      modify fun self =>
        { self with slots := self.slots.set (intoUsize id) (.live (write value)) }
      return some ⟨id, value⟩
  | _ => return none

/-- `IndexMut::index_mut`, with the write the caller performs through the borrow. -/
def indexMut (id : Id) (write : T → T) : Method Panic (RecyclingArena Id T) T := do
  match ← getMut id write with
  | some entry => return entry.inner
  | none => throw (.message s!"arena slot {intoUsize id} is free")

def clear : Method Panic (RecyclingArena Id T) Unit :=
  modify fun _ => empty

end RecyclingArena
end Jstd
