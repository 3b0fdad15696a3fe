import Jstd.Registry.Layout

/-!
# What the operations of Registry do to the flattened store

One lemma for each operation: its result, the invariant it restores, and the list it leaves.  All
of them change one chunk, so they share `Inv.set_chunk`.
-/

namespace Jstd
namespace Registry

open Foundation

variable {Id T : Type}

/-! ## Changing one chunk -/

/-- A chunk may be replaced, and the length changed, while the chunk stays the last used one. -/
theorem Inv.set_last {r : Registry Id T} (hI : r.Inv) {k len : Nat} {c c' : Chunk T}
    (hc : r.chunks[k]? = some c) (hlow : 2 ^ k ≤ r.len + 1) (hhigh : r.len + 1 ≤ 2 ^ (k + 1))
    (hlow' : 2 ^ k ≤ len + 1) (hhigh' : len + 1 ≤ 2 ^ (k + 1)) (hcap : c'.capacity = 2 ^ k)
    (helems : c'.elems.length = len + 1 - 2 ^ k) :
    ({ chunks := r.chunks.set k c', len := len } : Registry Id T).Inv := by
  have hlt := (List.getElem?_eq_some_iff.1 hc).1
  have hpow : 2 ^ (k + 1) = 2 ^ k * 2 := Nat.pow_succ 2 k
  constructor
  · intro i d hd
    -- The chunks below are full and those above are empty, before and after.
    rcases Nat.lt_trichotomy i k with hik | rfl | hik
    · have hmono : 2 ^ (i + 1) ≤ 2 ^ k := Nat.pow_le_pow_right (by omega) hik
      rw [Nat.pow_succ] at hmono
      rw [List.getElem?_set_ne (by omega)] at hd
      rw [hI.chunk_len hd]
      show _ = min _ (len + 1 - 2 ^ i)
      omega
    · rw [List.getElem?_set_self hlt, Option.some.injEq] at hd
      rw [← hd, helems]
      show _ = min _ (len + 1 - 2 ^ i)
      omega
    · have hmono : 2 ^ (k + 1) ≤ 2 ^ i := Nat.pow_le_pow_right (by omega) hik
      rw [List.getElem?_set_ne (by omega)] at hd
      rw [hI.chunk_len hd]
      show _ = min _ (len + 1 - 2 ^ i)
      omega
  · intro i d hd
    by_cases hik : k = i
    · subst hik
      rw [List.getElem?_set_self hlt, Option.some.injEq] at hd
      rw [← hd, hcap]
    · rw [List.getElem?_set_ne hik] at hd
      exact hI.chunk_capacity hd
  · have hmono : 2 ^ (k + 1) ≤ 2 ^ r.chunks.length := Nat.pow_le_pow_right (by omega) hlt
    show len + 1 ≤ 2 ^ (r.chunks.set k c').length
    rw [List.length_set]
    omega
  · show (r.chunks.set k c').length ≤ 64
    rw [List.length_set]
    exact hI.chunks_len

/-- Rewriting the payload of one element leaves every length as it is. -/
theorem Inv.set_elem {r : Registry Id T} (hI : r.Inv) {k : Nat} (offset : Nat) {c : Chunk T}
    (hc : r.chunks[k]? = some c) (v : T) :
    ({ r with chunks := r.chunks.set k { c with elems := c.elems.set offset v } } :
      Registry Id T).Inv := by
  have hlt := (List.getElem?_eq_some_iff.1 hc).1
  constructor
  · intro i d hd
    by_cases hik : k = i
    · subst hik
      rw [List.getElem?_set_self hlt, Option.some.injEq] at hd
      rw [← hd, List.length_set]
      exact hI.chunk_len hc
    · rw [List.getElem?_set_ne hik] at hd
      exact hI.chunk_len hd
  · intro i d hd
    by_cases hik : k = i
    · subst hik
      rw [List.getElem?_set_self hlt, Option.some.injEq] at hd
      rw [← hd]
      show c.capacity = 2 ^ k
      exact hI.chunk_capacity hc
    · rw [List.getElem?_set_ne hik] at hd
      exact hI.chunk_capacity hd
  · simpa using hI.covered
  · simpa using hI.chunks_len

/-! ## Push -/

/-- A fresh chunk is opened only when all earlier ones are full. -/
theorem Inv.open_chunk {r : Registry Id T} (hI : r.Inv) {k : Nat} (hlen : r.chunks.length = k)
    (hk : r.len + 1 = 2 ^ k) (hmax : r.len < usizeMax) :
    ({ r with chunks := r.chunks ++ [Chunk.withCapacity (2 ^ k)] } : Registry Id T).Inv := by
  have hpow : 2 ^ (k + 1) = 2 ^ k * 2 := Nat.pow_succ 2 k
  -- The length fits a `usize`, so there is room for one more chunk.
  have hk64 : k < 64 := by
    have hlt : 2 ^ k < 2 ^ 64 := by
      have : usizeMax = 2 ^ 64 - 1 := rfl
      omega
    exact (Nat.pow_lt_pow_iff_right (by omega)).1 hlt
  constructor
  · intro i d hd
    rw [List.getElem?_append] at hd
    split at hd
    · exact hI.chunk_len hd
    · rename_i hi
      rw [List.getElem?_singleton] at hd
      split at hd
      · obtain rfl : i = k := by omega
        obtain rfl := Option.some.inj hd
        show 0 = min (2 ^ i) (r.len + 1 - 2 ^ i)
        omega
      · cases hd
  · intro i d hd
    rw [List.getElem?_append] at hd
    split at hd
    · exact hI.chunk_capacity hd
    · rename_i hi
      rw [List.getElem?_singleton] at hd
      split at hd
      · obtain rfl : i = k := by omega
        obtain rfl := Option.some.inj hd
        rfl
      · cases hd
  · show r.len + 1 ≤ 2 ^ (r.chunks ++ [_]).length
    rw [List.length_append, List.length_singleton, hlen]
    omega
  · show (r.chunks ++ [_]).length ≤ 64
    rw [List.length_append, List.length_singleton, hlen]
    omega

/-- The first two statements of `push`: afterwards the chunk of the new element exists. -/
theorem Inv.push_prepare {r : Registry Id T} (hI : r.Inv) (hmax : r.len < usizeMax)
    {k offset : Nat} (hoff : offset < 2 ^ k) (hn : r.len = 2 ^ k + offset - 1) :
    ∃ r' : Registry Id T,
      (if offset = 0 ∧ r.chunks.length = k then
        { r with chunks := r.chunks ++ [Chunk.withCapacity (2 ^ k)] } else r) = r' ∧
      r'.Inv ∧ r'.len = r.len ∧ r'.flat = r.flat ∧ ∃ c, r'.chunks[k]? = some c := by
  by_cases hnew : offset = 0 ∧ r.chunks.length = k
  · have hpos := Nat.two_pow_pos k
    refine ⟨_, if_pos hnew, hI.open_chunk hnew.2 (by omega) hmax, rfl, ?_, ?_⟩
    · simp [flat, Chunk.withCapacity]
    · exact ⟨_, by rw [List.getElem?_append_right (by omega), hnew.2, Nat.sub_self]; rfl⟩
  · refine ⟨r, if_neg hnew, hI, rfl, rfl, ?_⟩
    have hlt : k < r.chunks.length := by
      apply Nat.lt_of_not_le
      intro hle
      have hmono : 2 ^ r.chunks.length ≤ 2 ^ k := Nat.pow_le_pow_right (by omega) hle
      have hcov := hI.covered
      have heq : 2 ^ r.chunks.length = 2 ^ k := by omega
      exact hnew ⟨by omega, Nat.pow_right_injective (Nat.le_refl 2) heq⟩
    exact ⟨_, List.getElem?_eq_getElem hlt⟩

section

variable [Identifier Id]

theorem Inv.push_spec {r : Registry Id T} (hI : r.Inv) (e : T) (hmax : r.len < usizeMax) :
    ∃ r', (push e).run r = (.ok (fromUsize r.len), r') ∧ r'.Inv ∧ r'.flat = r.flat ++ [e] := by
  obtain ⟨k, offset, hoff, hn⟩ := exists_layout r.len
  have hloc : locate r.len = (k, offset) := by
    rw [hn]
    exact locate_of_layout _ _ hoff (by omega)
  obtain ⟨r₁, hr₁, hI₁, hlen₁, hflat₁, c, hc⟩ := hI.push_prepare hmax hoff hn
  have hpow : 2 ^ (k + 1) = 2 ^ k * 2 := Nat.pow_succ 2 k
  have hclen := hI₁.chunk_len hc
  obtain ⟨pre, post, -, hpost, hflat, hset⟩ := hI₁.split hc (by omega)
  refine ⟨{ chunks := r₁.chunks.set k (c.push e), len := r₁.len + 1 }, ?_, ?_, ?_⟩
  · rw [push, Method.run_bind_get]
    simp only [hloc]
    -- The chunk is made by this push, or it was there and has room.
    by_cases hnew : offset = 0 ∧ r.chunks.length = k
    · rw [if_pos hnew] at hr₁
      simp only [if_pos hnew, Method.run_bind_modify, Method.run_bind_get, hr₁,
        index_of_getElem? hc]
      rfl
    · rw [if_neg hnew] at hr₁
      subst hr₁
      simp only [if_neg hnew, Method.run_bind_get, index_of_getElem? hc]
      rfl
  · refine hI₁.set_last hc (by omega) (by omega) (by omega) (by omega) ?_ ?_
    · have hcap := hI₁.chunk_capacity hc
      show Nat.max c.capacity (c.elems.length + 1) = 2 ^ k
      rw [hcap, hclen]
      exact Nat.max_eq_left (by omega)
    · show (c.elems ++ [e]).length = r₁.len + 1 + 1 - 2 ^ k
      rw [List.length_append, List.length_singleton]
      omega
  · have hnil := hpost (by omega)
    show (r₁.chunks.set k (c.push e)).flatMap Chunk.elems = r.flat ++ [e]
    rw [hset, ← hflat₁, hflat, hnil]
    simp [Chunk.push]

/-- No push succeeds on a registry of `usize::MAX` elements. -/
theorem Inv.push_full {r : Registry Id T} (hI : r.Inv) (e : T) (hfull : r.len = usizeMax) :
    ∃ err, (push e).run r = (.error err, r) := by
  have hc : r.chunks[4294967295]? = none :=
    List.getElem?_eq_none (by have := hI.chunks_len; omega)
  rw [push, Method.run_bind_get]
  simp only [hfull, locate_usizeMax]
  exact ⟨_, by simp [index_of_none hc]; rfl⟩

end

/-! ## Truncate -/

/-- One turn of the loop drops the last element. -/
theorem Inv.pop {r : Registry Id T} (hI : r.Inv) {last : Nat} (hlen : r.len = last + 1) :
    ∃ k offset c, locate last = (k, offset) ∧ r.chunks[k]? = some c ∧
      ({ chunks := r.chunks.set k (c.truncate offset), len := last } : Registry Id T).Inv ∧
      (r.chunks.set k (c.truncate offset)).flatMap Chunk.elems = r.flat.take last := by
  obtain ⟨v, hv⟩ : ∃ v, r.flat[last]? = some v :=
    ⟨_, List.getElem?_eq_getElem (by rw [hI.flat_length]; omega)⟩
  obtain ⟨k, offset, c, hloc, hoff, hn, hc, -⟩ := hI.exists_place hv
  have hpow : 2 ^ (k + 1) = 2 ^ k * 2 := Nat.pow_succ 2 k
  have hclen := hI.chunk_len hc
  have hcap : c.capacity = 2 ^ k := hI.chunk_capacity hc
  obtain ⟨pre, post, hpre, hpost, hflat, hset⟩ := hI.split hc (by omega)
  refine ⟨k, offset, c, hloc, hc, ?_, ?_⟩
  · refine hI.set_last hc (by omega) (by omega) (by omega) (by omega) hcap ?_
    show (c.elems.take offset).length = _
    rw [List.length_take]
    omega
  · have hnil := hpost (by omega)
    have hsum : last = pre.length + offset := by omega
    rw [hset, hflat, hnil, List.append_nil, List.append_nil, hsum, List.take_length_add_append]
    rfl

theorem Inv.truncateFrom_spec (len last : Nat) :
    ∀ {r : Registry Id T}, r.Inv → r.len = last →
      ∃ r', (truncateFrom len last).run r = (.ok (), r') ∧ r'.Inv ∧ r'.flat = r.flat.take len := by
  induction last with
  | zero =>
      intro r hI hlen
      refine ⟨r, rfl, hI, ?_⟩
      have hnil : r.flat = [] := List.eq_nil_of_length_eq_zero (by rw [hI.flat_length, hlen])
      rw [hnil, List.take_nil]
  | succ last ih =>
      intro r hI hlen
      by_cases hgt : last + 1 > len
      · obtain ⟨k, offset, c, hloc, hc, hI₁, hflat₁⟩ := hI.pop hlen
        obtain ⟨r', hrun, hI', hflat'⟩ := ih hI₁ rfl
        refine ⟨r', ?_, hI', ?_⟩
        · simp only [truncateFrom, if_pos hgt, hloc, Method.run_bind_get, index_of_getElem? hc,
            Method.run_bind_liftM_ok, Method.run_bind_modify, hlen, Nat.add_sub_cancel]
          exact hrun
        · rw [hflat']
          show ((r.chunks.set k (c.truncate offset)).flatMap Chunk.elems).take len = _
          rw [hflat₁, List.take_take, Nat.min_eq_left (by omega)]
      · refine ⟨r, by simp [truncateFrom, hgt], hI, ?_⟩
        rw [List.take_of_length_le (by rw [hI.flat_length]; omega)]

theorem Inv.truncate_spec {r : Registry Id T} (hI : r.Inv) (len : Nat) :
    ∃ r', (truncate len).run r = (.ok (), r') ∧ r'.Inv ∧ r'.flat = r.flat.take len := by
  rw [truncate, Method.run_bind_get]
  exact Inv.truncateFrom_spec len r.len hI rfl

/-! ## Writing through borrows -/

/-- A write through the place of element `n` changes that element and no other. -/
theorem Inv.writePlace_spec {r : Registry Id T} (hI : r.Inv) (write : T → T) {n : Nat} {v : T}
    (hv : r.flat[n]? = some v) :
    ∃ r', (writePlace write (locate n)).run r = (.ok v, r') ∧ r'.Inv ∧
      r'.flat = r.flat.set n (write v) := by
  obtain ⟨k, offset, c, hloc, hoff, hn, hc, hcv⟩ := hI.exists_place hv
  have hlt := (List.getElem?_eq_some_iff.1 hv).1
  rw [hI.flat_length] at hlt
  obtain ⟨pre, post, hpre, -, hflat, hset⟩ := hI.split hc (by omega)
  refine ⟨_, ?_, hI.set_elem offset hc (write v), ?_⟩
  · rw [writePlace, Method.run_bind_get, hloc]
    simp only [index_of_getElem? hc, index_of_getElem? hcv, Method.run_bind_liftM_ok,
      Method.run_bind_modify]
    rfl
  · have hoffc := (List.getElem?_eq_some_iff.1 hcv).1
    have hsub : n - pre.length = offset := by omega
    show (r.chunks.set k _).flatMap Chunk.elems = _
    rw [hset, hflat, List.append_assoc, List.append_assoc,
      List.set_append_right _ _ (by omega), hsub, List.set_append_left _ _ hoffc]

theorem Inv.writeAt_of_some {r : Registry Id T} (hI : r.Inv) (debug : Bool) (write : T → T)
    {n : Nat} {v : T} (hv : r.flat[n]? = some v) :
    ∃ r', (writeAt debug n write).run r = (.ok v, r') ∧ r'.Inv ∧
      r'.flat = r.flat.set n (write v) := by
  rw [writeAt, Method.run_bind_get, hI.place_of_some debug hv, Method.run_bind_liftM_ok]
  exact hI.writePlace_spec write hv

theorem Inv.writeAt_of_none {r : Registry Id T} (hI : r.Inv) (debug : Bool) (write : T → T)
    {n : Nat} (hn : n ≤ usizeMax) (hnone : r.flat[n]? = none) :
    ∃ e, (writeAt debug n write).run r = (.error e, r) := by
  obtain ⟨e, he⟩ := hI.place_of_none debug hn hnone
  refine ⟨e, ?_⟩
  rw [writeAt, Method.run_bind_get, he, Method.run_bind_liftM_error]

/-- The list after element `ns[i]` is rewritten by `write (start + i)`, for each `i` in turn. -/
def rewriteAll (write : Nat → T → T) : List Nat → Nat → List T → List T
  | [], _, L => L
  | n :: ns, start, L => rewriteAll write ns (start + 1) (L.modify n (write start))

/-- Writes through disjoint borrows overwrite what the elements held at the outset. -/
theorem Inv.writePlaces_spec (write : Nat → T → T) (ns : List Nat) :
    ∀ (start : Nat) {r : Registry Id T}, r.Inv → ns.Nodup → (∀ n ∈ ns, n < r.flat.length) →
      ∃ r', (writePlaces write (ns.map locate) start).run r =
          (.ok (ns.filterMap fun n => r.flat[n]?), r') ∧
        r'.Inv ∧ r'.flat = rewriteAll write ns start r.flat := by
  induction ns with
  | nil =>
      intro start r hI _ _
      exact ⟨r, rfl, hI, rfl⟩
  | cons n ns ih =>
      intro start r hI hnodup hlt
      obtain ⟨hnotin, hnodup⟩ := List.nodup_cons.1 hnodup
      have hn := hlt n List.mem_cons_self
      have hv : r.flat[n]? = some r.flat[n] := List.getElem?_eq_getElem hn
      obtain ⟨r₁, hrun₁, hI₁, hflat₁⟩ := hI.writePlace_spec (write start) hv
      have hlen₁ : r₁.flat.length = r.flat.length := by rw [hflat₁, List.length_set]
      obtain ⟨r', hrun, hI', hflat'⟩ := ih (start + 1) hI₁ hnodup (by
        intro m hm
        rw [hlen₁]
        exact hlt m (List.mem_cons_of_mem _ hm))
      -- The ids are apart, so the values still to be read are those of before.
      have hrest : (ns.filterMap fun m => r₁.flat[m]?) = ns.filterMap fun m => r.flat[m]? := by
        apply List.filterMap_congr
        intro m hm
        rw [hflat₁, List.getElem?_set_ne]
        rintro rfl
        exact hnotin hm
      refine ⟨r', ?_, hI', ?_⟩
      · rw [List.map_cons, writePlaces, Method.run_bind_of_ok hrun₁, Method.run_bind_of_ok hrun,
          hrest, List.filterMap_cons_some hv]
        rfl
      · rw [hflat', hflat₁, rewriteAll]
        congr 1
        rw [List.modify_eq_set_getElem?, hv]
        rfl

end Registry
end Jstd
