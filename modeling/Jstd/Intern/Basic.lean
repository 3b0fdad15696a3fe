import Jstd.Registry.Basic

/-!
# Interning — strings that live for ever

The model of `intern.rs`, with the implementation of `registry.rs`.  A `&'static str` is the address
of a box that was leaked; boxes are numbered as they are leaked, and what a pointer reads is found
in that memory.  Nothing frees a leaked box or writes to it, so the memory only grows.

The trait is a class over the type that is interned and the type that comes out.
-/

namespace Jstd

open Foundation

/-- `&'static str`. -/
structure StaticStr where
  address : Nat
  deriving DecidableEq, Repr

/-- The set, whose members are found by their texts, and the memory leaked so far. -/
structure StringPool where
  set : HashMap String StaticStr
  leaked : List String

namespace StringPool

/-- `Default`. -/
def empty : StringPool :=
  { set := .empty, leaked := [] }

/-- `Box::leak`, which nothing undoes. -/
def leak (boxed : String) : Method Panic StringPool StaticStr := do
  let self ← get
  modify fun self => { self with leaked := self.leaked ++ [boxed] }
  return ⟨self.leaked.length⟩

/-- Move a string into the pool. -/
def intern (s : String) : Method Panic StringPool StaticStr := do
  let self ← get
  match self.set.get? s with
  | some existing => return existing
  | none =>
      let leaked ← leak s
      modify fun self => { self with set := self.set.insert s leaked }
      return leaked

end StringPool

/-- The trait `Intern`. -/
class Intern (T : Type) (Static : outParam Type) where
  intern : T → Method Panic StringPool Static

namespace Intern

variable {T Static : Type}

/-- `&str`. -/
instance : Intern String StaticStr where
  intern s := StringPool.intern s

/-- `into_iter().map(intern).collect()` on a vector. -/
def internAll [Intern T Static] : List T → Method Panic StringPool (List Static)
  | [] => pure []
  | x :: xs => do
      let y ← intern x
      let ys ← internAll xs
      return y :: ys

/-- `Vec<T>`. -/
instance [Intern T Static] : Intern (List T) (List Static) where
  intern xs := internAll xs

/-- `Option<T>`. -/
instance [Intern T Static] : Intern (Option T) (Option Static) where
  intern
    | none => pure none
    | some x => do
        let y ← intern x
        return some y

/-- `reg.push(item.inner.intern(pool));`, on the pool that the iterator holds and the registry that
the loop fills. -/
def pushInterned {Id : Type} [Identifier Id] [Intern T Static] (x : T) :
    Method Panic (StringPool × Registry Id Static) Unit := do
  let e ← Method.focus Prod.fst (fun s pool => (pool, s.2)) (intern x)
  let _ ← Method.focus Prod.snd (fun s reg => (s.1, reg)) (Registry.push e)

/-- `Registry<Id, T>`: `into_iter().map(intern).collect()`, through the loop of `from_iter`. -/
instance {Id : Type} [Identifier Id] [Intern T Static] :
    Intern (Registry Id T) (Registry Id Static) where
  intern self := do
    let pool ← get
    let (result, pool, reg) :=
      (Method.forEach pushInterned (self.intoIter.map Identified.inner)).run (pool, Registry.empty)
    set pool
    let _ ← result
    return reg

end Intern
end Jstd
