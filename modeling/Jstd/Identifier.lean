import Mathlib.Data.Fintype.Basic
import Jstd.Panic

/-!
# Identifier — typed indices

`Identifier` is the trait of `registry.rs`: `From<usize>` and `Into<usize>`, nothing more.  A
`usize` is a natural number of at most `usizeMax`, so converting out of an identifier stays within
that bound.

`DerivedId` is what `#[derive(Identifier)]` generates: a tuple struct over `usize` or `u32`, whose
`From<usize>` keeps the value for the first backing and narrows it for the second.
-/

namespace Jstd

/-- The trait `Identifier`: conversions from and to `usize`. -/
class Identifier (Id : Type) where
  /-- `From<usize>`. -/
  fromUsize : Nat → Id
  /-- `Into<usize>`. -/
  intoUsize : Id → Nat
  intoUsize_le : ∀ id, intoUsize id ≤ usizeMax

export Identifier (fromUsize intoUsize)

/-- `n` survives the conversion to an identifier and back. -/
def RoundTrips (Id : Type) [Identifier Id] (n : Nat) : Prop :=
  intoUsize (fromUsize n : Id) = n

instance (Id : Type) [Identifier Id] (n : Nat) : Decidable (RoundTrips Id n) :=
  inferInstanceAs (Decidable (_ = _))

/-- The trait asks that an identifier be "a light wrapper over `usize`": what round-trips is an
initial segment of `usize`. -/
class LightWrapper (Id : Type) extends Identifier Id where
  roundTrips_of_le : ∀ {m n : Nat}, m ≤ n → RoundTrips Id n → RoundTrips Id m

/-- A value paired with its typed identifier. -/
structure Identified (Id T : Type) where
  id : Id
  inner : T
  deriving DecidableEq, Repr

/-- The entry an iterator yields for an index and its payload. -/
def Identified.ofEntry {Id T : Type} [Identifier Id] (p : Nat × T) : Identified Id T :=
  ⟨fromUsize p.1, p.2⟩

/-! ## Derived identifiers -/

/-- Which primitive integer backs an `Identifier` tuple struct. -/
inductive Backing
  | usize
  | u32
  deriving DecidableEq, Repr

/-- The largest value of the backing integer. -/
def Backing.max : Backing → Nat
  | .usize => usizeMax
  | .u32 => 2 ^ 32 - 1

theorem Backing.max_le : ∀ b : Backing, b.max ≤ usizeMax
  | .usize => Nat.le_refl _
  | .u32 => by decide

/-- The tuple struct `#[derive(Identifier)]` is written on. -/
structure DerivedId (b : Backing) where
  raw : Nat
  raw_le : raw ≤ b.max
  deriving DecidableEq, Repr

namespace DerivedId

variable {b : Backing}

/-- `Self(value)`, respectively `Self(value as u32)`. -/
def ofNat (b : Backing) (n : Nat) : DerivedId b :=
  ⟨n % (b.max + 1), Nat.le_of_lt_succ (Nat.mod_lt _ (Nat.succ_pos _))⟩

instance : Identifier (DerivedId b) where
  fromUsize := ofNat b
  intoUsize id := id.raw
  intoUsize_le id := Nat.le_trans id.raw_le b.max_le

theorem roundTrips_iff {n : Nat} : RoundTrips (DerivedId b) n ↔ n ≤ b.max := by
  show n % (b.max + 1) = n ↔ n ≤ b.max
  rw [Nat.mod_eq_iff_lt (Nat.succ_ne_zero _)]
  exact Nat.lt_succ_iff

instance : LightWrapper (DerivedId b) where
  roundTrips_of_le hmn hn := roundTrips_iff.2 (Nat.le_trans hmn (roundTrips_iff.1 hn))

end DerivedId

end Jstd
