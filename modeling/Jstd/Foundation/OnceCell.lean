import Jstd.Foundation.Method

/-!
# OnceCell — a part of the receiver that is computed on first use

`get_or_init` fills an empty cell and leaves a full one alone.  If the computation fails, the cell
stays empty.  `read` says what is in the cell, `fill` writes to it.
-/

namespace Jstd
namespace Foundation
namespace OnceCell

variable {ε σ α : Type}

/-- `get_or_init`, on a cell of the receiver. -/
def getOrInit (read : σ → Option α) (fill : σ → α → σ) (init : σ → Except ε α) :
    Method ε σ α := do
  let self ← get
  match read self with
  | some value => pure value
  | none => do
      let value ← init self
      modify fun self => fill self value
      return value

variable {read : σ → Option α} {fill : σ → α → σ} {init : σ → Except ε α} {s : σ}

theorem getOrInit_full {value : α} (h : read s = some value) :
    (getOrInit read fill init).run s = (.ok value, s) := by
  simp only [getOrInit, Method.run_bind_get, h, Method.run_pure]

theorem getOrInit_empty {value : α} (h : read s = none) (hinit : init s = .ok value) :
    (getOrInit read fill init).run s = (.ok value, fill s value) := by
  simp only [getOrInit, Method.run_bind_get, h, hinit, Method.run_bind_liftM_ok,
    Method.run_bind_modify, Method.run_pure]

/-- Whatever the cell held, it is full afterwards, of what is returned; and what it holds is right
if what it held was, and what is computed is. -/
theorem getOrInit_spec (read : σ → Option α) (fill : σ → α → σ) (init : σ → Except ε α)
    {P : α → Prop} (hfill : ∀ s value, read (fill s value) = some value)
    (hread : ∀ value, read s = some value → P value)
    (hinit : read s = none → ∃ value, init s = .ok value ∧ P value) :
    ∃ value s', (getOrInit read fill init).run s = (.ok value, s') ∧ P value ∧
      read s' = some value ∧ (s' = s ∨ read s = none ∧ s' = fill s value) := by
  cases h : read s with
  | some value => exact ⟨value, s, getOrInit_full h, hread value h, h, .inl rfl⟩
  | none =>
      obtain ⟨value, hvalue, hP⟩ := hinit h
      exact ⟨value, fill s value, getOrInit_empty h hvalue, hP, hfill s value, .inr ⟨rfl, rfl⟩⟩

end OnceCell
end Foundation
end Jstd
