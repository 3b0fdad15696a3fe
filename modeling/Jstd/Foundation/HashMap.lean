import Mathlib.Data.Finmap
import Mathlib.Data.Finset.Sort

/-!
# HashMap — finite maps read in an arbitrary order

A hash map is a finite map; a hash set is a finite set.  What the order of iteration is depends on
the hasher and on the history of the table, so nothing may depend on it: every traversal is given
its order by a `HashOrder`, and results are stated for all of them.
-/

namespace Jstd
namespace Foundation

/-- A finite map. -/
def HashMap (K V : Type) : Type :=
  Finmap fun _ : K => V

namespace HashMap

variable {K V W : Type}

def empty : HashMap K V :=
  (∅ : Finmap fun _ : K => V)

/-- The keys, in no order. -/
def keys (m : HashMap K V) : Finset K :=
  Finmap.keys m

variable [DecidableEq K]

/-- `get`. -/
def get? (m : HashMap K V) (k : K) : Option V :=
  Finmap.lookup k m

/-- Maps are told apart by their entries. -/
theorem ext {m m' : HashMap K V} (h : ∀ k, m.get? k = m'.get? k) : m = m' :=
  Finmap.ext_lookup h

/-- `contains_key`. -/
def containsKey (m : HashMap K V) (k : K) : Bool :=
  (m.get? k).isSome

def insert (m : HashMap K V) (k : K) (v : V) : HashMap K V :=
  Finmap.insert k v m

def remove (m : HashMap K V) (k : K) : HashMap K V :=
  Finmap.erase k m

@[simp] theorem get?_empty (k : K) : (empty : HashMap K V).get? k = none :=
  Finmap.lookup_empty k

theorem get?_insert (m : HashMap K V) (k k' : K) (v : V) :
    (m.insert k v).get? k' = if k' = k then some v else m.get? k' := by
  by_cases h : k' = k
  · subst h
    rw [if_pos rfl]
    exact Finmap.lookup_insert m
  · rw [if_neg h]
    exact Finmap.lookup_insert_of_ne m h

@[simp] theorem get?_insert_self (m : HashMap K V) (k : K) (v : V) :
    (m.insert k v).get? k = some v := by
  simp [get?_insert]

theorem get?_remove (m : HashMap K V) (k k' : K) :
    (m.remove k).get? k' = if k' = k then none else m.get? k' := by
  by_cases h : k' = k
  · subst h
    rw [if_pos rfl]
    exact Finmap.lookup_erase k' m
  · rw [if_neg h]
    exact Finmap.lookup_erase_ne h

theorem mem_keys_iff {m : HashMap K V} {k : K} : k ∈ m.keys ↔ (m.get? k).isSome :=
  Finmap.mem_keys.trans Finmap.lookup_isSome.symm

theorem mem_keys_of_get? {m : HashMap K V} {k : K} {v : V} (h : m.get? k = some v) :
    k ∈ m.keys :=
  mem_keys_iff.2 (by rw [h]; rfl)

theorem exists_of_mem_keys {m : HashMap K V} {k : K} (h : k ∈ m.keys) :
    ∃ v, m.get? k = some v :=
  Option.isSome_iff_exists.1 (mem_keys_iff.1 h)

@[simp] theorem keys_insert (m : HashMap K V) (k : K) (v : V) :
    (m.insert k v).keys = Insert.insert k m.keys := by
  ext k'
  rw [Finset.mem_insert, mem_keys_iff, mem_keys_iff, get?_insert]
  by_cases h : k' = k
  · simp [h]
  · simp [h]

@[simp] theorem keys_remove (m : HashMap K V) (k : K) : (m.remove k).keys = m.keys.erase k := by
  ext k'
  rw [Finset.mem_erase, mem_keys_iff, mem_keys_iff, get?_remove]
  by_cases h : k' = k
  · simp [h]
  · simp [h]

/-- `iter().map(|(k, v)| (k, f(v))).collect()`, over the keys in the given order.  The closure may
carry a state from call to call. -/
def mapValues {σ : Type} (f : V → StateM σ W) (m : HashMap K V) :
    List K → StateM σ (HashMap K W)
  | [] => pure empty
  | k :: ks =>
      match m.get? k with
      | some v => do
          let w ← f v
          let rest ← mapValues f m ks
          return rest.insert k w
      | none => mapValues f m ks

/-- Mapping the values keeps the keys. -/
theorem mem_keys_mapValues {σ : Type} (f : V → StateM σ W) (m : HashMap K V) (k : K)
    (ks : List K) :
    ∀ s, k ∈ ((mapValues f m ks).run s).1.keys ↔ k ∈ ks ∧ k ∈ m.keys := by
  induction ks with
  | nil =>
      intro s
      show k ∈ (empty : HashMap K W).keys ↔ _
      simp [mem_keys_iff]
  | cons k' ks ih =>
      intro s
      cases hv : m.get? k' with
      | none =>
          simp only [mapValues, hv, ih, List.mem_cons]
          constructor
          · rintro ⟨hks, hm⟩
            exact ⟨.inr hks, hm⟩
          · rintro ⟨rfl | hks, hm⟩
            · rw [mem_keys_iff, hv] at hm
              cases hm
            · exact ⟨hks, hm⟩
      | some v =>
          have hrun : ((mapValues f m (k' :: ks)).run s).1 =
              (((mapValues f m ks).run ((f v).run s).2).1).insert k' ((f v).run s).1 := by
            simp only [mapValues, hv]
            rfl
          rw [hrun, keys_insert, Finset.mem_insert, ih, List.mem_cons]
          constructor
          · rintro (rfl | ⟨hks, hm⟩)
            · exact ⟨.inl rfl, mem_keys_of_get? hv⟩
            · exact ⟨.inr hks, hm⟩
          · rintro ⟨rfl | hks, hm⟩
            · exact .inl rfl
            · exact .inr ⟨hks, hm⟩

/-- What a closure without state leaves under each key. -/
theorem get?_mapValues {σ : Type} (f : V → W) (m : HashMap K V) (k : K) (ks : List K) :
    ∀ s : σ, ((mapValues (fun v => (pure (f v) : StateM σ W)) m ks).run s).1.get? k =
      if k ∈ ks then (m.get? k).map f else none := by
  induction ks with
  | nil =>
      intro s
      exact get?_empty k
  | cons k' ks ih =>
      intro s
      cases hv : m.get? k' with
      | none =>
          simp only [mapValues, hv, ih, List.mem_cons]
          by_cases hk : k = k'
          · simp [hk, hv]
          · simp [hk]
      | some v =>
          have hrun : ((mapValues (fun v => (pure (f v) : StateM σ W)) m (k' :: ks)).run s).1 =
              (((mapValues (fun v => (pure (f v) : StateM σ W)) m ks).run s).1).insert k' (f v) := by
            simp only [mapValues, hv]
            rfl
          rw [hrun, get?_insert, ih]
          by_cases hk : k = k'
          · simp [hk, hv]
          · simp [hk]

end HashMap

/-- One order to traverse each finite set of keys in. -/
structure HashOrder (K : Type) where
  list : Finset K → List K
  nodup : ∀ s, (list s).Nodup
  mem_list : ∀ {s k}, k ∈ list s ↔ k ∈ s

/-- So over all keys, in any order, the values are mapped. -/
theorem HashMap.get?_mapValues_list {K V W σ : Type} [DecidableEq K] (order : HashOrder K)
    (f : V → W) (m : HashMap K V) (k : K) (s : σ) :
    ((m.mapValues (fun v => (pure (f v) : StateM σ W)) (order.list m.keys)).run s).1.get? k =
      (m.get? k).map f := by
  rw [HashMap.get?_mapValues]
  split
  · rfl
  · rename_i hk
    rw [order.mem_list, HashMap.mem_keys_iff, Option.not_isSome_iff_eq_none] at hk
    rw [hk]
    rfl

/-- Every listing of a set is the order of some table. -/
theorem HashOrder.exists_list {K : Type} {s : Finset K} {l : List K} (hnodup : l.Nodup)
    (hmem : ∀ {k}, k ∈ l ↔ k ∈ s) : ∃ order : HashOrder K, order.list s = l := by
  classical
  refine ⟨{ list := fun t => if t = s then l else t.toList, nodup := ?_, mem_list := ?_ },
    if_pos rfl⟩
  · intro t
    split
    · exact hnodup
    · exact t.nodup_toList
  · intro t k
    split
    · rename_i hts
      rw [hts, hmem]
    · exact Finset.mem_toList

/-- Only sets of at most one key are read in increasing order whatever the order of the table. -/
theorem HashOrder.pairwise_iff_card {K : Type} {R : K → K → Prop}
    (hasymm : ∀ {a b}, R a b → ¬ R b a) (s : Finset K) :
    (∀ order : HashOrder K, (order.list s).Pairwise R) ↔ s.card ≤ 1 := by
  have hlength : ∀ order : HashOrder K, (order.list s).length = s.card := by
    intro order
    have hset : (⟨(order.list s : Multiset K), order.nodup s⟩ : Finset K) = s :=
      Finset.ext fun _ => order.mem_list
    exact congrArg Finset.card hset
  constructor
  · intro h
    obtain ⟨order, horder⟩ := HashOrder.exists_list s.nodup_toList Finset.mem_toList
    obtain ⟨back, hback⟩ := HashOrder.exists_list (List.nodup_reverse.2 (order.nodup s))
      (List.mem_reverse.trans order.mem_list)
    have hforth := h order
    have hback := hback ▸ h back
    rw [List.pairwise_reverse] at hback
    rw [← hlength order]
    -- Two keys would stand in both orders.
    rcases hl : order.list s with _ | ⟨a, _ | ⟨b, rest⟩⟩
    · simp
    · simp
    · rw [hl] at hforth hback
      have hab := (List.pairwise_cons.1 hforth).1 b List.mem_cons_self
      exact absurd ((List.pairwise_cons.1 hback).1 b List.mem_cons_self) (hasymm hab)
  · intro hcard order
    rw [← hlength order] at hcard
    rcases hl : order.list s with _ | ⟨a, _ | ⟨b, rest⟩⟩
    · exact .nil
    · exact List.pairwise_singleton R a
    · rw [hl] at hcard
      simp at hcard

/-- In particular, a linear order sorts them. -/
def HashOrder.sorted (K : Type) [LinearOrder K] : HashOrder K where
  list s := s.sort (· ≤ ·)
  nodup s := s.sort_nodup (· ≤ ·)
  mem_list := Finset.mem_sort (· ≤ ·)

end Foundation
end Jstd
