import Mathlib.Data.Nat.Log
import Jstd.Registry.Basic

/-!
# The chunk layout of Registry

Indexing goes through the bit arithmetic of `locate`, while iteration, equality and serialisation
flatten the chunks.  The two agree because of one invariant on the chunk lengths: chunk `k` holds
`min (2^k) (len + 1 - 2^k)` elements, so the chunks before the last used one are exactly full and
those after it are empty.
-/

namespace Jstd
namespace Registry

open Foundation

variable {Id T : Type}

/-! ## The arithmetic of `locate` -/

/-- Inside `usize`, `locate` is the doubling layout. -/
theorem locate_eq {n : Nat} (hn : n < usizeMax) :
    locate n = (Nat.log2 (n + 1), n + 1 - 2 ^ Nat.log2 (n + 1)) := by
  have hmax : usizeMax = 2 ^ 64 - 1 := rfl
  have hm : (n + 1) % 2 ^ 64 = n + 1 := Nat.mod_eq_of_lt (by omega)
  have hlog : Nat.log2 (n + 1) < 64 := (Nat.log2_lt (Nat.succ_ne_zero n)).2 (by omega)
  have hpow : 2 ^ Nat.log2 (n + 1) ≤ n + 1 := Nat.log2_self_le (Nat.succ_ne_zero n)
  have hk : (2 ^ 32 + 63 - leadingZeros (n + 1)) % 2 ^ 32 = Nat.log2 (n + 1) := by
    have hlz : leadingZeros (n + 1) = 63 - Nat.log2 (n + 1) := if_neg (Nat.succ_ne_zero n)
    omega
  unfold locate
  simp only [hm, hk]
  rw [Nat.mod_eq_of_lt hlog]
  have hpos := Nat.two_pow_pos (Nat.log2 (n + 1))
  have hle : (n + 1 + 2 ^ 64 - 2 ^ Nat.log2 (n + 1)) % 2 ^ 64 =
      n + 1 - 2 ^ Nat.log2 (n + 1) := by
    have : n + 1 + 2 ^ 64 - 2 ^ Nat.log2 (n + 1) =
        (n + 1 - 2 ^ Nat.log2 (n + 1)) + 2 ^ 64 := by omega
    rw [this, Nat.add_mod_right, Nat.mod_eq_of_lt (by omega)]
  rw [hle]

/-- At `usize::MAX` the successor wraps to zero, and the chunk index is out of any range. -/
theorem locate_usizeMax : locate usizeMax = (2 ^ 32 - 1, 2 ^ 63) := by decide

theorem log2_add {k offset : Nat} (h : offset < 2 ^ k) : Nat.log2 (2 ^ k + offset) = k := by
  have hne : 2 ^ k + offset ≠ 0 := by
    have := Nat.two_pow_pos k
    omega
  rw [Nat.log2_eq_iff hne, Nat.pow_succ]
  omega

/-- `locate` inverts the layout. -/
theorem locate_of_layout (k offset : Nat) (hoff : offset < 2 ^ k)
    (hn : 2 ^ k + offset - 1 < usizeMax) : locate (2 ^ k + offset - 1) = (k, offset) := by
  have hpos := Nat.two_pow_pos k
  have hsucc : 2 ^ k + offset - 1 + 1 = 2 ^ k + offset := by omega
  rw [locate_eq hn, hsucc, log2_add hoff]
  simp

/-- The place of an index, and the index of that place. -/
theorem exists_layout (n : Nat) :
    ∃ k offset, offset < 2 ^ k ∧ n = 2 ^ k + offset - 1 := by
  refine ⟨Nat.log2 (n + 1), n + 1 - 2 ^ Nat.log2 (n + 1), ?_, ?_⟩
  · have hlt : n + 1 < 2 ^ (Nat.log2 (n + 1) + 1) := Nat.lt_log2_self
    rw [Nat.pow_succ] at hlt
    omega
  · have hle : 2 ^ Nat.log2 (n + 1) ≤ n + 1 := Nat.log2_self_le (Nat.succ_ne_zero n)
    omega

/-! ## The invariant -/

/-- Chunk `k` holds its share of the `len` elements, in room made for `2^k`. -/
structure Inv (r : Registry Id T) : Prop where
  chunk_len : ∀ {k : Nat} {c : Chunk T}, r.chunks[k]? = some c →
    c.elems.length = min (2 ^ k) (r.len + 1 - 2 ^ k)
  chunk_capacity : ∀ {k : Nat} {c : Chunk T}, r.chunks[k]? = some c → c.capacity = 2 ^ k
  covered : r.len + 1 ≤ 2 ^ r.chunks.length
  chunks_len : r.chunks.length ≤ 64

theorem empty_inv : (empty : Registry Id T).Inv where
  chunk_len := by
    intro k c hc
    simp [empty] at hc
  chunk_capacity := by
    intro k c hc
    simp [empty] at hc
  covered := by simp [empty]
  chunks_len := Nat.zero_le _

/-! ## Flattening chunks of the right lengths -/

/-- The chunks from number `j` on of a store of `len` elements. -/
def Shares (len j : Nat) (cs : List (Chunk T)) : Prop :=
  ∀ i c, cs[i]? = some c → c.elems.length = min (2 ^ (j + i)) (len + 1 - 2 ^ (j + i))

theorem Shares.tail {len j : Nat} {c : Chunk T} {cs : List (Chunk T)}
    (h : Shares len j (c :: cs)) : Shares len (j + 1) cs := by
  intro i d hd
  have := h (i + 1) d (by simpa using hd)
  rwa [show j + (i + 1) = j + 1 + i by omega] at this

theorem Shares.head {len j : Nat} {c : Chunk T} {cs : List (Chunk T)}
    (h : Shares len j (c :: cs)) : c.elems.length = min (2 ^ j) (len + 1 - 2 ^ j) := by
  simpa using h 0 c (by simp)

/-- Chunks past the last used one are empty. -/
theorem Shares.flat_eq_nil {len j : Nat} {cs : List (Chunk T)} (h : Shares len j cs)
    (hle : len + 1 ≤ 2 ^ j) : cs.flatMap Chunk.elems = [] := by
  induction cs generalizing j with
  | nil => rfl
  | cons c cs ih =>
      have hc : c.elems = [] := by
        apply List.eq_nil_of_length_eq_zero
        rw [h.head]
        omega
      have hpow : 2 ^ (j + 1) = 2 ^ j * 2 := Nat.pow_succ 2 j
      rw [List.flatMap_cons, hc, ih h.tail (by omega)]
      rfl

theorem Shares.flat_length {len j : Nat} {cs : List (Chunk T)} (h : Shares len j cs)
    (hcov : len + 1 ≤ 2 ^ (j + cs.length)) :
    (cs.flatMap Chunk.elems).length = len + 1 - 2 ^ j := by
  induction cs generalizing j with
  | nil =>
      simp only [List.length_nil, Nat.add_zero] at hcov
      simp only [List.flatMap_nil, List.length_nil]
      omega
  | cons c cs ih =>
      have hpow : 2 ^ (j + 1) = 2 ^ j * 2 := Nat.pow_succ 2 j
      have htail := ih h.tail (by simpa [Nat.add_assoc, Nat.add_comm 1] using hcov)
      rw [List.flatMap_cons, List.length_append, htail, h.head]
      omega

/-- Element `2^(j+i) + offset - 1`, counted from the start of chunk `j`, is element `offset` of
the `i`-th chunk. -/
theorem Shares.flat_getElem? {len j : Nat} {cs : List (Chunk T)} (h : Shares len j cs) :
    ∀ i offset, offset < 2 ^ (j + i) →
      (cs.flatMap Chunk.elems)[2 ^ (j + i) + offset - 2 ^ j]? =
        cs[i]?.bind fun c => c.elems[offset]? := by
  induction cs generalizing j with
  | nil =>
      intro i offset _
      simp
  | cons c cs ih =>
      intro i offset hoff
      have hpow : 2 ^ (j + 1) = 2 ^ j * 2 := Nat.pow_succ 2 j
      rw [List.flatMap_cons, List.getElem?_append]
      by_cases hfull : c.elems.length = 2 ^ j
      · cases i with
        | zero =>
            have hidx : 2 ^ (j + 0) + offset - 2 ^ j = offset := by simp
            rw [hidx, if_pos (by simpa [hfull] using hoff)]
            rfl
        | succ i =>
            have hassoc : j + (i + 1) = j + 1 + i := by omega
            have hmono : 2 ^ (j + 1) ≤ 2 ^ (j + 1 + i) :=
              Nat.pow_le_pow_right (by omega) (by omega)
            rw [hassoc] at hoff ⊢
            rw [if_neg (by omega)]
            have hidx : 2 ^ (j + 1 + i) + offset - 2 ^ j - c.elems.length =
                2 ^ (j + 1 + i) + offset - 2 ^ (j + 1) := by omega
            rw [hidx, ih h.tail i offset hoff, List.getElem?_cons_succ]
      · -- The chunk is not full, so everything after it is empty.
        have hhead := h.head
        have hrest : cs.flatMap Chunk.elems = [] := h.tail.flat_eq_nil (by omega)
        rw [hrest, List.getElem?_nil]
        cases i with
        | zero =>
            have hidx : 2 ^ (j + 0) + offset - 2 ^ j = offset := by simp
            rw [hidx]
            split
            · rfl
            · simp only [List.getElem?_cons_zero, Option.bind_some]
              exact (List.getElem?_eq_none (by omega)).symm
        | succ i =>
            have hmono : 2 ^ (j + 1) ≤ 2 ^ (j + (i + 1)) :=
              Nat.pow_le_pow_right (by omega) (by omega)
            rw [if_neg (by omega), List.getElem?_cons_succ]
            cases hci : cs[i]? with
            | none => rfl
            | some d =>
                have hd : d.elems = [] := by
                  apply List.eq_nil_of_length_eq_zero
                  have := h (i + 1) d (by simpa using hci)
                  omega
                simp [hd]

theorem Inv.shares {r : Registry Id T} (hI : r.Inv) : Shares r.len 0 r.chunks := by
  intro i c hc
  simpa using hI.chunk_len hc

theorem Inv.flat_length {r : Registry Id T} (hI : r.Inv) : r.flat.length = r.len := by
  have := hI.shares.flat_length (by simpa using hI.covered)
  simpa [flat] using this

/-- The flattened store at an index, by the place of that index. -/
theorem Inv.flat_getElem? {r : Registry Id T} (hI : r.Inv) {k offset : Nat}
    (hoff : offset < 2 ^ k) :
    r.flat[2 ^ k + offset - 1]? = r.chunks[k]?.bind fun c => c.elems[offset]? := by
  have := hI.shares.flat_getElem? k offset (by simpa using hoff)
  simpa [flat] using this

theorem Inv.len_le {r : Registry Id T} (hI : r.Inv) : r.len ≤ usizeMax := by
  have hmono : 2 ^ r.chunks.length ≤ 2 ^ 64 := Nat.pow_le_pow_right (by omega) hI.chunks_len
  have hcov := hI.covered
  have hmax : usizeMax = 2 ^ 64 - 1 := rfl
  omega

/-! ## Splitting at a chunk -/

/-- A used chunk splits the flattened store: the `2^k - 1` elements before it, its own, and those
after it, of which there are none when it is the last used one. -/
theorem Inv.split {r : Registry Id T} (hI : r.Inv) {k : Nat} {c : Chunk T}
    (hc : r.chunks[k]? = some c) (hk : 2 ^ k ≤ r.len + 1) :
    ∃ pre post : List T, pre.length = 2 ^ k - 1 ∧ (r.len + 1 ≤ 2 ^ (k + 1) → post = []) ∧
      r.flat = pre ++ c.elems ++ post ∧
      ∀ c' : Chunk T, (r.chunks.set k c').flatMap Chunk.elems = pre ++ c'.elems ++ post := by
  obtain ⟨hlt, rfl⟩ := List.getElem?_eq_some_iff.1 hc
  have hset : ∀ c' : Chunk T, (r.chunks.set k c').flatMap Chunk.elems =
      (r.chunks.take k).flatMap Chunk.elems ++ c'.elems ++
        (r.chunks.drop (k + 1)).flatMap Chunk.elems := by
    intro c'
    rw [List.set_eq_take_append_cons_drop, if_pos hlt, List.flatMap_append, List.flatMap_cons,
      List.append_assoc]
  refine ⟨(r.chunks.take k).flatMap Chunk.elems, (r.chunks.drop (k + 1)).flatMap Chunk.elems,
    ?_, ?_, ?_, hset⟩
  · -- The chunks before a used one are full, as in a store of `2^k - 1` elements.
    have hfull : Shares (2 ^ k - 1) 0 (r.chunks.take k) := by
      intro i d hd
      rw [List.getElem?_take] at hd
      split at hd
      · rename_i hik
        have hpow : 2 ^ (i + 1) ≤ 2 ^ k := Nat.pow_le_pow_right (by omega) hik
        rw [Nat.pow_succ] at hpow
        rw [hI.chunk_len hd, Nat.zero_add]
        omega
      · cases hd
    have hlen : (r.chunks.take k).length = k := by
      rw [List.length_take]
      omega
    have hpos := Nat.two_pow_pos k
    rw [hfull.flat_length (by rw [hlen, Nat.zero_add]; omega)]
    omega
  · intro hle
    have hrest : Shares r.len (k + 1) (r.chunks.drop (k + 1)) := by
      intro i d hd
      rw [List.getElem?_drop] at hd
      exact hI.chunk_len hd
    exact hrest.flat_eq_nil hle
  · rw [← hset, List.set_getElem_self]
    rfl

/-! ## Places -/

/-- The places of the chunks from number `j` on, of a store of `len` elements. -/
theorem Shares.places_eq {len j : Nat} {cs : List (Chunk T)} (h : Shares len j cs)
    (hcov : len + 1 ≤ 2 ^ (j + cs.length)) (hmax : len ≤ usizeMax) :
    ((cs.zipIdx j).flatMap fun (chunk, k) => (List.range chunk.elems.length).map (k, ·)) =
      (List.range' (2 ^ j - 1) (len + 1 - 2 ^ j)).map locate := by
  induction cs generalizing j with
  | nil =>
      simp only [List.length_nil, Nat.add_zero] at hcov
      have hzero : len + 1 - 2 ^ j = 0 := by omega
      rw [hzero]
      rfl
  | cons c cs ih =>
      have hpow : 2 ^ (j + 1) = 2 ^ j * 2 := Nat.pow_succ 2 j
      have hpos := Nat.two_pow_pos j
      have htail := ih h.tail (by simpa [Nat.add_assoc, Nat.add_comm 1] using hcov)
      have hhead : (List.range c.elems.length).map (j, ·) =
          (List.range' (2 ^ j - 1) c.elems.length).map locate := by
        rw [List.range'_eq_map_range, List.map_map]
        apply List.map_congr_left
        intro offset hoff
        have hlt := List.mem_range.1 hoff
        rw [h.head] at hlt
        have hloc := locate_of_layout j offset (by omega) (by omega)
        simp only [Function.comp_apply]
        rw [← hloc]
        congr 1
        omega
      have hcount : len + 1 - 2 ^ j = c.elems.length + (len + 1 - 2 ^ (j + 1)) := by
        rw [h.head]
        omega
      rw [List.zipIdx_cons, List.flatMap_cons, htail]
      show (List.range c.elems.length).map (j, ·) ++ _ = _
      rw [hhead, ← List.map_append, hcount]
      congr 1
      rw [← List.range'_append_1]
      -- A chunk that is not full is the last one that holds anything.
      by_cases hfull : c.elems.length = 2 ^ j
      · rw [hfull]
        congr 2
        omega
      · have hzero : len + 1 - 2 ^ (j + 1) = 0 := by
          have := h.head
          omega
        rw [hzero]
        rfl

/-- `iter_mut` runs through the places of `0..len`, as `locate` computes them. -/
theorem Inv.places_eq {r : Registry Id T} (hI : r.Inv) :
    r.places = (List.range r.len).map locate := by
  have := hI.shares.places_eq (by simpa using hI.covered) hI.len_le
  simpa [places, List.range_eq_range'] using this

/-- The chunk and the offset an index in bounds is found at. -/
theorem Inv.exists_place {r : Registry Id T} (hI : r.Inv) {n : Nat} {v : T}
    (hv : r.flat[n]? = some v) :
    ∃ k offset c, locate n = (k, offset) ∧ offset < 2 ^ k ∧ n = 2 ^ k + offset - 1 ∧
      r.chunks[k]? = some c ∧ c.elems[offset]? = some v := by
  have hlt := (List.getElem?_eq_some_iff.1 hv).1
  rw [hI.flat_length] at hlt
  obtain ⟨k, offset, hoff, rfl⟩ := exists_layout n
  rw [hI.flat_getElem? hoff] at hv
  obtain ⟨c, hc, hcv⟩ := Option.bind_eq_some_iff.1 hv
  have hmax := hI.len_le
  exact ⟨k, offset, c, locate_of_layout _ _ hoff (by omega), hoff, rfl, hc, hcv⟩

/-- The checks of `at` and `at_mut` pass on an index in bounds. -/
theorem Inv.place_of_some {r : Registry Id T} (hI : r.Inv) (debug : Bool) {n : Nat} {v : T}
    (hv : r.flat[n]? = some v) : place debug r n = .ok (locate n) := by
  have hlt := (List.getElem?_eq_some_iff.1 hv).1
  rw [hI.flat_length] at hlt
  obtain ⟨k, offset, c, hloc, -, -, hc, hcv⟩ := hI.exists_place hv
  simp [place, hlt, hloc, index_of_getElem? hc, index_of_getElem? hcv, Bind.bind, Except.bind,
    pure, Except.pure]

/-- They fail past the end, whether or not the debug assertion is compiled in. -/
theorem Inv.place_of_none {r : Registry Id T} (hI : r.Inv) (debug : Bool) {n : Nat}
    (hn : n ≤ usizeMax) (hnone : r.flat[n]? = none) : ∃ e, place debug r n = .error e := by
  have hge := List.getElem?_eq_none_iff.1 hnone
  rw [hI.flat_length] at hge
  cases debug with
  | true =>
      -- The assertion fails first.
      exact ⟨_, by simp [place, Nat.not_lt.2 hge, Bind.bind, Except.bind, throw, throwThe,
        MonadExceptOf.throw]; rfl⟩
  | false =>
      -- The place is in a chunk that is missing or too short.
      rcases Nat.lt_or_eq_of_le hn with hlt | rfl
      · obtain ⟨k, offset, hoff, rfl⟩ := exists_layout n
        have hloc := locate_of_layout _ _ hoff hlt
        rw [hI.flat_getElem? hoff] at hnone
        cases hc : r.chunks[k]? with
        | none =>
            exact ⟨_, by simp [place, hloc, index_of_none hc, Bind.bind, Except.bind]; rfl⟩
        | some c =>
            rw [hc, Option.bind_some] at hnone
            exact ⟨_, by
              simp [place, hloc, index_of_getElem? hc, index_of_none hnone, Bind.bind,
                Except.bind]; rfl⟩
      -- At `usize::MAX` the place is in a chunk that cannot exist.
      · have hc : r.chunks[4294967295]? = none :=
          List.getElem?_eq_none (by have := hI.chunks_len; omega)
        exact ⟨_, by
          simp [place, locate_usizeMax, index_of_none hc, Bind.bind, Except.bind]; rfl⟩

theorem Inv.readPlace_locate {r : Registry Id T} (hI : r.Inv) {n : Nat} {v : T}
    (hv : r.flat[n]? = some v) : readPlace r (locate n) = .ok v := by
  obtain ⟨k, offset, c, hloc, -, -, hc, hcv⟩ := hI.exists_place hv
  simp [readPlace, hloc, index_of_getElem? hc, index_of_getElem? hcv, Bind.bind, Except.bind]

/-- `at` reads the flattened store, and panics past its end. -/
theorem Inv.readAt_eq {r : Registry Id T} (hI : r.Inv) (debug : Bool) {n : Nat}
    (hn : n ≤ usizeMax) : (readAt debug r n).toOption = r.flat[n]? := by
  cases hv : r.flat[n]? with
  | some v =>
      simp [readAt, hI.place_of_some debug hv, hI.readPlace_locate hv, Bind.bind, Except.bind,
        Except.toOption]
  | none =>
      obtain ⟨e, he⟩ := hI.place_of_none debug hn hv
      simp [readAt, he, Bind.bind, Except.bind, Except.toOption]

end Registry
end Jstd
