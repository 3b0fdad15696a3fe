import Mathlib.Data.List.Nodup
import Mathlib.Data.List.Pairwise

/-!
# OptionList — lists of optional values

The abstract contents of a container that hands out indices and may take their payload back: entry
`i` is `some v` while index `i` holds `v`, and `none` once it has been vacated.
-/

namespace Jstd
namespace Foundation

variable {T : Type}

/-- The occupied entries from index `k` on, in index order. -/
def entriesFrom : Nat → List (Option T) → List (Nat × T)
  | _, [] => []
  | k, none :: M => entriesFrom (k + 1) M
  | k, some v :: M => (k, v) :: entriesFrom (k + 1) M

/-- The occupied entries, in index order. -/
def entries (M : List (Option T)) : List (Nat × T) :=
  entriesFrom 0 M

theorem mem_entriesFrom {M : List (Option T)} :
    ∀ {k i : Nat} {v : T}, (i, v) ∈ entriesFrom k M ↔ k ≤ i ∧ M[i - k]? = some (some v) := by
  -- `k` is the index of the head of what is left of the list.
  induction M with
  | nil =>
      intro k i v
      simp [entriesFrom]
  | cons entry M ih =>
      intro k i v
      have hshift : k + 1 ≤ i → (entry :: M)[i - k]? = M[i - (k + 1)]? := by
        intro hle
        have : i - k = (i - (k + 1)) + 1 := by omega
        rw [this, List.getElem?_cons_succ]
      cases entry with
      | none =>
          rw [entriesFrom, ih]
          constructor
          · rintro ⟨hle, hM⟩
            exact ⟨by omega, by rw [hshift hle]; exact hM⟩
          · rintro ⟨hle, hM⟩
            rcases Nat.eq_or_lt_of_le hle with rfl | hlt
            · simp at hM
            · exact ⟨hlt, by rw [← hshift hlt]; exact hM⟩
      | some w =>
          rw [entriesFrom, List.mem_cons, ih]
          constructor
          · rintro (hhead | ⟨hle, hM⟩)
            · cases hhead
              simp
            · exact ⟨by omega, by rw [hshift hle]; exact hM⟩
          · rintro ⟨hle, hM⟩
            rcases Nat.eq_or_lt_of_le hle with rfl | hlt
            · left
              simpa [eq_comm] using hM
            · right
              exact ⟨hlt, by rw [← hshift hlt]; exact hM⟩

theorem mem_entries {M : List (Option T)} {i : Nat} {v : T} :
    (i, v) ∈ entries M ↔ M[i]? = some (some v) := by
  simp [entries, mem_entriesFrom]

theorem entriesFrom_pairwise (M : List (Option T)) :
    ∀ k, (entriesFrom k M).Pairwise fun p q => p.1 < q.1 := by
  induction M with
  | nil =>
      intro k
      simp [entriesFrom]
  | cons entry M ih =>
      intro k
      cases entry with
      | none => exact ih (k + 1)
      | some v =>
          refine List.pairwise_cons.2 ⟨?_, ih (k + 1)⟩
          rintro ⟨i, w⟩ hmem
          exact (mem_entriesFrom.1 hmem).1

/-- Indices come in increasing order, so no entry is listed twice. -/
theorem entries_pairwise (M : List (Option T)) : (entries M).Pairwise fun p q => p.1 < q.1 :=
  entriesFrom_pairwise M 0

theorem entriesFrom_length (M : List (Option T)) :
    ∀ k, (entriesFrom k M).length = M.countP Option.isSome := by
  induction M with
  | nil =>
      intro k
      rfl
  | cons entry M ih =>
      intro k
      cases entry with
      | none => simp [entriesFrom, ih]
      | some v => simp [entriesFrom, ih]

theorem entries_length (M : List (Option T)) : (entries M).length = M.countP Option.isSome :=
  entriesFrom_length M 0

theorem countP_eq_zero {M : List (Option T)} :
    M.countP Option.isSome = 0 ↔ ∀ entry ∈ M, entry = none := by
  simp [List.countP_eq_zero]

/-! ## Updates of one entry -/

theorem countP_set_some {M : List (Option T)} {i : Nat} {v : T}
    (h : M[i]? = some none) :
    (M.set i (some v)).countP Option.isSome = M.countP Option.isSome + 1 := by
  obtain ⟨hlt, hget⟩ := List.getElem?_eq_some_iff.1 h
  rw [List.countP_set hlt, hget]
  rfl

theorem countP_set_none {M : List (Option T)} {i : Nat} {v : T}
    (h : M[i]? = some (some v)) :
    (M.set i none).countP Option.isSome = M.countP Option.isSome - 1 := by
  obtain ⟨hlt, hget⟩ := List.getElem?_eq_some_iff.1 h
  rw [List.countP_set hlt, hget]
  rfl

theorem countP_modify (f : T → T) (M : List (Option T)) :
    ∀ i, (M.modify i (Option.map f)).countP Option.isSome = M.countP Option.isSome := by
  induction M with
  | nil =>
      intro i
      simp
  | cons entry M ih =>
      intro i
      cases i with
      | zero => simp [List.countP_cons]
      | succ i => simp [List.countP_cons, ih i]

/-- Writing through a vacant entry writes nothing. -/
theorem modify_of_vacant (f : T → T) {M : List (Option T)} {i : Nat}
    (h : M[i]?.join = none) : M.modify i (Option.map f) = M := by
  apply List.ext_getElem?
  intro j
  rw [List.getElem?_modify]
  by_cases hj : i = j
  · subst hj
    cases hM : M[i]? with
    | none => rfl
    | some entry =>
        rw [hM, Option.join_some] at h
        simp [h]
  · simp [hj]

theorem modify_of_occupied (f : T → T) {M : List (Option T)} {i : Nat} {v : T}
    (h : M[i]? = some (some v)) : M.modify i (Option.map f) = M.set i (some (f v)) := by
  have hlt := (List.getElem?_eq_some_iff.1 h).1
  apply List.ext_getElem?
  intro j
  rw [List.getElem?_modify, List.getElem?_set]
  by_cases hj : i = j
  · subst hj
    rw [h]
    simp [hlt]
  · simp [hj]

/-- Vacating a vacant entry changes nothing. -/
theorem set_none_of_vacant {M : List (Option T)} {i : Nat} (h : M[i]?.join = none) :
    M.set i none = M := by
  apply List.ext_getElem?
  intro j
  rw [List.getElem?_set]
  by_cases hj : i = j
  · subst hj
    cases hM : M[i]? with
    | none =>
        have := List.getElem?_eq_none_iff.1 hM
        simp [this]
    | some entry =>
        rw [hM, Option.join_some] at h
        have := (List.getElem?_eq_some_iff.1 hM).1
        simp [h, this]
  · simp [hj]

end Foundation
end Jstd
