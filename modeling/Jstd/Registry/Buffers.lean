import Jstd.Registry.Runs

/-!
# Buffers — where the elements of a registry are

The registry once more, with the allocation each chunk has its elements in.  A vector stays in its
allocation while its length stays within its capacity, and moves to a new one when it outgrows it.
Forgetting the allocations gives back the registry of the other modules (`step_erases`), so the
layout invariant is at hand to show that no chunk ever outgrows its capacity.

Allocations are numbered as they are made and a number is not used again.
-/

namespace Jstd

open Foundation

/-- One `Vec<T>` of the store, and the allocation it has its elements in. -/
structure Buffer (T : Type) where
  address : Nat
  chunk : Chunk T
  deriving DecidableEq, Repr

namespace Buffer

variable {T : Type}

/-- `Vec::push`: without room the elements move to the allocation `fresh`. -/
def push (self : Buffer T) (fresh : Nat) (e : T) : Buffer T :=
  { address := if self.chunk.elems.length < self.chunk.capacity then self.address else fresh
    chunk := self.chunk.push e }

def truncate (self : Buffer T) (len : Nat) : Buffer T :=
  { self with chunk := self.chunk.truncate len }

/-- `v[offset] = value`. -/
def setElem (self : Buffer T) (offset : Nat) (value : T) : Buffer T :=
  { self with chunk := { self.chunk with elems := self.chunk.elems.set offset value } }

end Buffer

/-- A registry with its allocations; the numbers from `fresh` on are not used yet. -/
structure PlacedRegistry (Id T : Type) where
  buffers : List (Buffer T)
  len : Nat
  fresh : Nat
  deriving DecidableEq, Repr

namespace PlacedRegistry

variable {Id T : Type}

def empty : PlacedRegistry Id T :=
  { buffers := [], len := 0, fresh := 0 }

/-- The registry without its allocations. -/
def registry (self : PlacedRegistry Id T) : Registry Id T :=
  { chunks := self.buffers.map Buffer.chunk, len := self.len }

def addresses (self : PlacedRegistry Id T) : List Nat :=
  self.buffers.map Buffer.address

/-- The allocation element `n` is in, and its offset there. -/
def addressOf (self : PlacedRegistry Id T) (n : Nat) : Option (Nat × Nat) :=
  self.buffers[(locate n).1]?.map fun buffer => (buffer.address, (locate n).2)

/-! ## The operations, as the source does them -/

section

variable [Identifier Id]

def push (e : T) : Method Panic (PlacedRegistry Id T) Id := do
  let self ← get
  let n := self.len
  let (k, offset) := locate n
  if offset = 0 ∧ self.buffers.length = k then
    modify fun self => { self with
      buffers := self.buffers ++ [{ address := self.fresh, chunk := Chunk.withCapacity (2 ^ k) }]
      fresh := self.fresh + 1 }
  let self ← get
  let buffer ← index self.buffers k
  modify fun self => { self with
    buffers := self.buffers.set k (buffer.push self.fresh e)
    fresh := self.fresh + 1 }
  modify fun self => { self with len := self.len + 1 }
  return fromUsize n

end

/-- The loop of `truncate`, entered with `self.len` at the given value. -/
def truncateFrom (len : Nat) : Nat → Method Panic (PlacedRegistry Id T) Unit
  | 0 => pure ()
  | last + 1 =>
      if last + 1 > len then do
        let (k, offset) := locate last
        let self ← get
        let buffer ← index self.buffers k
        modify fun self => { self with buffers := self.buffers.set k (buffer.truncate offset) }
        modify fun self => { self with len := self.len - 1 }
        truncateFrom len last
      else pure ()

def truncate (len : Nat) : Method Panic (PlacedRegistry Id T) Unit := do
  let self ← get
  truncateFrom len self.len

/-- Write through a mutable borrow; returns the value it overwrites. -/
def writePlace (value : T) (p : Nat × Nat) : Method Panic (PlacedRegistry Id T) T := do
  let self ← get
  let buffer ← index self.buffers p.1
  let old ← index buffer.chunk.elems p.2
  modify fun self => { self with buffers := self.buffers.set p.1 (buffer.setElem p.2 value) }
  return old

/-- `at_mut`, with the value written through the borrow. -/
def writeAt (debug : Bool) (n : Nat) (value : T) : Method Panic (PlacedRegistry Id T) T := do
  let self ← get
  let p ← Registry.place debug self.registry n
  writePlace value p

section

variable [Identifier Id]

def replace (debug : Bool) (id : Id) (value : T) : Method Panic (PlacedRegistry Id T) T :=
  writeAt debug (intoUsize id) value

/-- `FromIterator::from_iter`. -/
def fromIter (items : List T) : Except Panic (PlacedRegistry Id T) :=
  match (Method.forEach (fun e => do let _ ← push e) items).run
      (empty : PlacedRegistry Id T) with
  | (.ok _, reg) => .ok reg
  | (.error e, _) => .error e

/-- `Deserialize::deserialize`: the sequence read as a vector, which is then collected. -/
def deserialize (seq : List T) : Except Panic (PlacedRegistry Id T) :=
  fromIter seq

/-- `Clone::clone`: a registry of its own, rebuilt through `push`. -/
def clone (self : PlacedRegistry Id T) : Except Panic (PlacedRegistry Id T) :=
  fromIter self.registry.flat

/-- What changes a registry in place. -/
inductive Op (Id T : Type)
  | push (e : T)
  | truncate (len : Nat)
  | replace (id : Id) (value : T)

def step (debug : Bool) (op : Op Id T) (r : PlacedRegistry Id T) :
    Except Panic (Registry.Out T) × PlacedRegistry Id T :=
  match op with
  | .push e => ((fun id => Registry.Out.index (intoUsize id)) <$> push e).run r
  | .truncate len => ((fun _ => Registry.Out.unit) <$> truncate len).run r
  | .replace id value => (Registry.Out.value <$> replace debug id value).run r

/-- The same operation on the registry without allocations. -/
def Op.plain : Op Id T → Registry.Op Id T
  | .push e => .push e
  | .truncate len => .truncate len
  | .replace id value => .replace id value

end

/-! ## Forgetting the allocations -/

theorem index_map {α β : Type} (f : α → β) (xs : List α) (i : Nat) :
    Jstd.index (xs.map f) i = (Jstd.index xs i).map f := by
  unfold Jstd.index
  rw [List.getElem?_map]
  cases xs[i]? with
  | none => rfl
  | some x => rfl

theorem push_erases [Identifier Id] (e : T) :
    Method.Erases registry (push e : Method Panic (PlacedRegistry Id T) Id) (Registry.push e) := by
  refine .bindGet fun r => ?_
  -- The part after the branch is the same on both sides of it.
  have hwrite : ∀ k, Method.Erases registry
      (do
        let self ← get
        let buffer ← index self.buffers k
        modify fun self => { self with
          buffers := self.buffers.set k (buffer.push self.fresh e)
          fresh := self.fresh + 1 }
        modify fun self => { self with len := self.len + 1 }
        return fromUsize r.len : Method Panic (PlacedRegistry Id T) Id)
      (do
        let self ← get
        let chunk ← index self.chunks k
        modify fun self => { self with chunks := self.chunks.set k (chunk.push e) }
        modify fun self => { self with len := self.len + 1 }
        return fromUsize r.len) := by
    intro k
    refine .bindGet fun s => ?_
    rw [registry, index_map]
    refine .bindLiftMap _ Buffer.chunk fun buffer => ?_
    refine .bind (.modify fun s => ?_) fun _ => .bind (.modify fun s => rfl) fun _ => .pure _
    rw [registry, registry, List.map_set]
    rfl
  obtain ⟨k, offset, hloc⟩ : ∃ k offset, locate r.len = (k, offset) := ⟨_, _, rfl⟩
  have hlen : r.registry.len = r.len := rfl
  have hchunks : r.registry.chunks.length = r.buffers.length := List.length_map _
  simp only [hlen, hloc, hchunks]
  refine .ite (.bind (.modify fun s => ?_) fun _ => hwrite k) (hwrite k)
  rw [registry, registry, List.map_append]
  rfl

theorem truncateFrom_erases (len : Nat) : ∀ last, Method.Erases registry
    (truncateFrom len last : Method Panic (PlacedRegistry Id T) Unit)
    (Registry.truncateFrom len last) := by
  intro last
  induction last with
  | zero => exact .pure ()
  | succ last ih =>
      refine .ite ?_ (.pure ())
      refine .bindGet fun r => ?_
      show Method.Erases registry _
        ((liftM (Jstd.index (r.buffers.map Buffer.chunk) (locate last).1) :
          Method Panic (Registry Id T) (Chunk T)) >>= _)
      rw [index_map]
      refine .bindLiftMap _ Buffer.chunk fun buffer => ?_
      refine .bind (.modify fun s => ?_) fun _ => .bind (.modify fun s => rfl) fun _ => ih
      rw [registry, registry, List.map_set]
      rfl

theorem truncate_erases (len : Nat) : Method.Erases registry
    (truncate len : Method Panic (PlacedRegistry Id T) Unit) (Registry.truncate len) :=
  .bindGet fun r => truncateFrom_erases len r.len

theorem writePlace_erases (value : T) (p : Nat × Nat) : Method.Erases registry
    (writePlace value p : Method Panic (PlacedRegistry Id T) T)
    (Registry.writePlace (fun _ => value) p) := by
  refine .bindGet fun r => ?_
  rw [registry, index_map]
  refine .bindLiftMap _ Buffer.chunk fun buffer => .bindLift _ fun old =>
    .bind (.modify fun s => ?_) fun _ => .pure old
  rw [registry, registry, List.map_set]
  rfl

theorem writeAt_erases (debug : Bool) (n : Nat) (value : T) : Method.Erases registry
    (writeAt debug n value : Method Panic (PlacedRegistry Id T) T)
    (Registry.writeAt debug n fun _ => value) :=
  .bindGet fun _ => .bindLift _ fun p => writePlace_erases value p

variable [Identifier Id]

/-- Every operation is the operation of `Registry`, with the allocations along. -/
theorem step_erases (debug : Bool) (op : Op Id T) (r : PlacedRegistry Id T) :
    Registry.step debug op.plain r.registry = ((step debug op r).1, (step debug op r).2.registry) := by
  cases op with
  | push e => exact (push_erases e).map _ r
  | truncate len => exact (truncate_erases len).map _ r
  | replace id value => exact (writeAt_erases debug (intoUsize id) value).map _ r

/-- A run is a run of `Registry` with the same outcomes, with the allocations along. -/
theorem run_erases (debug : Bool) (ops : List (Op Id T)) (r : PlacedRegistry Id T) :
    runOps (fun op => Registry.step debug op.plain) ops r.registry =
      ((runOps (step debug) ops r).1, (runOps (step debug) ops r).2.registry) := by
  have hsim : Simulates (fun (s : PlacedRegistry Id T) t => t = s.registry) (step debug)
      (fun op => Registry.step debug op.plain) id := by
    rintro op s _ rfl - -
    have herase := step_erases debug op s
    exact ⟨(congrArg Prod.fst herase).symm, congrArg Prod.snd herase⟩
  obtain ⟨houts, hend⟩ := run_refines hsim ops r r.registry rfl
  rw [List.map_id] at houts
  exact Prod.ext houts.symm hend

/-- Collecting into allocations is collecting, with the allocations along. -/
theorem fromIter_erases (items : List T) :
    Registry.fromIter items = (fromIter items : Except Panic (PlacedRegistry Id T)).map registry := by
  have hbody : ∀ e : T, Method.Erases registry
      (do let _ ← push e : Method Panic (PlacedRegistry Id T) Unit)
      (do let _ ← Registry.push e : Method Panic (Registry Id T) Unit) :=
    fun e => (push_erases e).bind fun _ => .pure ()
  have hloop := Method.Erases.forEach hbody items empty
  have hempty : (empty : PlacedRegistry Id T).registry = Registry.empty := rfl
  rw [hempty] at hloop
  rw [Registry.fromIter, fromIter, hloop]
  rcases (Method.forEach _ items).run (empty : PlacedRegistry Id T) with ⟨result, r⟩
  cases result with
  | ok u => rfl
  | error e => rfl

/-! ## What one operation does to the allocations -/

omit [Identifier Id] in
/-- A chunk may be rewritten in its allocation. -/
theorem map_address_set {buffers : List (Buffer T)} {k : Nat} {b b' : Buffer T}
    (hb : buffers[k]? = some b) (h : b'.address = b.address) :
    (buffers.set k b').map Buffer.address = buffers.map Buffer.address := by
  obtain ⟨hlt, rfl⟩ := List.getElem?_eq_some_iff.1 hb
  rw [List.map_set, h, ← List.getElem_map Buffer.address, List.set_getElem_self]
  simpa using hlt

/-- The layout of the registry, and an allocation of its own for every chunk. -/
structure Placed (r : PlacedRegistry Id T) : Prop where
  inv : r.registry.Inv
  nodup : r.addresses.Nodup
  allocated : ∀ a ∈ r.addresses, a < r.fresh

omit [Identifier Id] in
theorem empty_placed : (empty : PlacedRegistry Id T).Placed where
  inv := Registry.empty_inv
  nodup := List.nodup_nil
  allocated := by simp [addresses, empty]

/-- The allocations stay, or one is added for the chunk that the new length begins. -/
inductive Continues (r r' : PlacedRegistry Id T) : Prop
  | stay (haddresses : r'.addresses = r.addresses) (hfresh : r.fresh ≤ r'.fresh)
  | extend (haddresses : r'.addresses = r.addresses ++ [r.fresh]) (hfresh : r.fresh < r'.fresh)
      (hlen : r'.len = 2 ^ r.buffers.length)

/-- The chunk a push writes has room, so the push leaves it where it is. -/
theorem Placed.push_continues {r : PlacedRegistry Id T} (hr : r.Placed) (e : T) :
    r.Continues ((push e).run r).2 := by
  rw [push, Method.run_bind_get]
  rcases Nat.lt_or_eq_of_le hr.inv.len_le with hlt | hfull
  · have hmax : r.len < usizeMax := hlt
    obtain ⟨k, offset, hoff, hn⟩ := Registry.exists_layout r.len
    have hloc : locate r.len = (k, offset) := by
      rw [hn]
      exact Registry.locate_of_layout _ _ hoff (by omega)
    by_cases hnew : offset = 0 ∧ r.buffers.length = k
    · -- The first element of a chunk: its buffer is fresh, and all the earlier chunks are full.
      have hb : (r.buffers ++ [{ address := r.fresh, chunk := Chunk.withCapacity (2 ^ k) }])[k]? =
          some { address := r.fresh, chunk := Chunk.withCapacity (2 ^ k) } := by
        rw [List.getElem?_append_right (by omega), hnew.2, Nat.sub_self]
        rfl
      have hpos := Nat.two_pow_pos k
      simp only [hloc, if_pos hnew, Method.run_bind_get, index_of_getElem? hb,
        Method.run_bind_liftM_ok, Method.run_bind_modify]
      refine .extend ((map_address_set hb (if_pos hpos)).trans List.map_append)
        (Nat.lt_add_of_pos_right Nat.two_pos) ?_
      show r.len + 1 = 2 ^ r.buffers.length
      rw [hnew.2]
      omega
    · -- The chunk is there, and it is not full.
      obtain ⟨s, hs, -, -, -, c, hc⟩ := hr.inv.push_prepare hmax hoff hn
      have hchunks : r.registry.chunks.length = r.buffers.length := List.length_map _
      rw [hchunks, if_neg hnew] at hs
      subst hs
      obtain ⟨b, hb, rfl⟩ : ∃ b, r.buffers[k]? = some b ∧ b.chunk = c := by
        rw [registry, List.getElem?_map] at hc
        exact Option.map_eq_some_iff.1 hc
      have hroom : b.chunk.elems.length < b.chunk.capacity := by
        have hlen := hr.inv.chunk_len hc
        have hcap := hr.inv.chunk_capacity hc
        have hregistry : r.registry.len = r.len := rfl
        omega
      simp only [hloc, if_neg hnew, Method.run_bind_get, index_of_getElem? hb,
        Method.run_bind_liftM_ok, Method.run_bind_modify]
      exact .stay (map_address_set hb (if_pos hroom)) (Nat.le_succ _)
  · -- At the last length the place names a chunk that cannot exist, and the push panics.
    have hlen : r.len = usizeMax := hfull
    have hnone : r.buffers[4294967295]? = none := by
      have hchunks := hr.inv.chunks_len
      have hlength : r.registry.chunks.length = r.buffers.length := List.length_map _
      exact List.getElem?_eq_none (by omega)
    simp only [hlen, Registry.locate_usizeMax]
    have hskip : ¬ (2 ^ 63 = 0 ∧ r.buffers.length = 2 ^ 32 - 1) := by omega
    simp only [if_neg hskip, Method.run_bind_get]
    rw [show 2 ^ 32 - 1 = 4294967295 from rfl, index_of_none hnone]
    exact .stay rfl (Nat.le_refl _)

/-- Nothing is allocated and nothing moves. -/
def At (A : List Nat) (n : Nat) (r : PlacedRegistry Id T) : Prop :=
  r.addresses = A ∧ r.fresh = n

omit [Identifier Id] in
theorem truncateFrom_keeps (A : List Nat) (n len : Nat) : ∀ last, Method.Keeps (At A n)
    (truncateFrom len last : Method Panic (PlacedRegistry Id T) Unit) := by
  intro last
  induction last with
  | zero => exact .pure ()
  | succ last ih =>
      intro r hr
      obtain ⟨k, offset, hloc⟩ : ∃ k offset, locate last = (k, offset) := ⟨_, _, rfl⟩
      by_cases hgt : last + 1 > len
      · simp only [truncateFrom, if_pos hgt, hloc, Method.run_bind_get]
        cases hb : r.buffers[k]? with
        | none =>
            rw [index_of_none hb]
            exact hr
        | some b =>
            have hstay : (b.truncate offset).address = b.address := rfl
            simp only [index_of_getElem? hb, Method.run_bind_liftM_ok, Method.run_bind_modify]
            exact ih _ ⟨(map_address_set hb hstay).trans hr.1, hr.2⟩
      · rw [truncateFrom, if_neg hgt]
        exact hr

omit [Identifier Id] in
theorem writePlace_keeps (A : List Nat) (n : Nat) (value : T) (p : Nat × Nat) :
    Method.Keeps (At A n) (writePlace value p : Method Panic (PlacedRegistry Id T) T) := by
  intro r hr
  rw [writePlace, Method.run_bind_get]
  cases hb : r.buffers[p.1]? with
  | none =>
      rw [index_of_none hb]
      exact hr
  | some b =>
      rw [index_of_getElem? hb, Method.run_bind_liftM_ok]
      cases hv : b.chunk.elems[p.2]? with
      | none =>
          rw [index_of_none hv]
          exact hr
      | some v =>
          rw [index_of_getElem? hv]
          have hstay : (b.setElem p.2 value).address = b.address := rfl
          exact ⟨(map_address_set hb hstay).trans hr.1, hr.2⟩

omit [Identifier Id] in
theorem At.continues {r r' : PlacedRegistry Id T} (h : At r.addresses r.fresh r') :
    r.Continues r' :=
  .stay h.1 (Nat.le_of_eq h.2.symm)

theorem Placed.step_continues {r : PlacedRegistry Id T} (hr : r.Placed) (debug : Bool)
    (op : Op Id T) : r.Continues (step debug op r).2 := by
  cases op with
  | push e =>
      rw [step, Method.run_map_snd]
      exact hr.push_continues e
  | truncate len =>
      have hkeep : Method.Keeps (At r.addresses r.fresh)
          (truncate len : Method Panic (PlacedRegistry Id T) Unit) :=
        .bind .get fun s => truncateFrom_keeps _ _ len s.len
      exact (hkeep.map _ r ⟨rfl, rfl⟩).continues
  | replace id value =>
      have hkeep : Method.Keeps (At r.addresses r.fresh)
          (replace debug id value : Method Panic (PlacedRegistry Id T) T) :=
        .bind .get fun _ => .bind (.liftM _) fun p => writePlace_keeps _ _ value p
      exact (hkeep.map _ r ⟨rfl, rfl⟩).continues

/-- Every operation keeps the layout and gives no two chunks one allocation. -/
theorem Placed.of_step {r : PlacedRegistry Id T} (hr : r.Placed) (debug : Bool) (op : Op Id T) :
    (step debug op r).2.Placed := by
  have hinv := hr.inv.step debug op.plain
  rw [step_erases] at hinv
  cases hr.step_continues debug op with
  | stay haddresses hfresh =>
      refine ⟨hinv, haddresses ▸ hr.nodup, ?_⟩
      rw [haddresses]
      exact fun a ha => Nat.lt_of_lt_of_le (hr.allocated a ha) hfresh
  | extend haddresses hfresh _ =>
      refine ⟨hinv, ?_, ?_⟩
      · rw [haddresses]
        refine List.nodup_append.2 ⟨hr.nodup, List.nodup_singleton _, ?_⟩
        intro a ha b hb
        rw [List.mem_singleton.1 hb]
        exact Nat.ne_of_lt (hr.allocated a ha)
      · rw [haddresses]
        intro a ha
        rcases List.mem_append.1 ha with ha | ha
        · exact Nat.lt_trans (hr.allocated a ha) hfresh
        · rwa [List.mem_singleton.1 ha]

omit [Identifier Id] in
theorem Placed.len_lt {r : PlacedRegistry Id T} (hr : r.Placed) {m : Nat}
    (h : r.buffers.length ≤ m) : r.len < 2 ^ m := by
  have hcovered : r.len + 1 ≤ 2 ^ r.registry.chunks.length := hr.inv.covered
  rw [show r.registry.chunks.length = r.buffers.length from List.length_map _] at hcovered
  exact Nat.lt_of_lt_of_le hcovered (Nat.pow_le_pow_right Nat.two_pos h)

/-- The number of chunks, over one operation: it stays the least that the lengths ask for. -/
theorem Placed.length_le_step {r : PlacedRegistry Id T} (hr : r.Placed) (debug : Bool)
    (op : Op Id T) (m : Nat) :
    (step debug op r).2.buffers.length ≤ m ↔
      r.buffers.length ≤ m ∧ (step debug op r).2.len < 2 ^ m := by
  have hlength : ∀ s : PlacedRegistry Id T, s.addresses.length = s.buffers.length :=
    fun s => List.length_map _
  refine ⟨fun h => ⟨?_, (hr.of_step debug op).len_lt h⟩, ?_⟩
  · cases hr.step_continues debug op with
    | stay haddresses _ =>
        rw [← hlength, haddresses, hlength] at h
        exact h
    | extend haddresses _ _ =>
        rw [← hlength, haddresses, List.length_append, hlength] at h
        exact Nat.le_of_add_right_le h
  · rintro ⟨h, hlt⟩
    rw [← hlength]
    cases hr.step_continues debug op with
    | stay haddresses _ =>
        rw [haddresses, hlength]
        exact h
    | extend haddresses _ hlen =>
        -- The new chunk was needed for the length reached.
        rw [haddresses, List.length_append, hlength]
        rw [hlen] at hlt
        exact (Nat.pow_lt_pow_iff_right (by omega)).1 hlt

/-- The operations that end or overwrite element `n`. -/
def Op.Touches (n : Nat) : Op Id T → Prop
  | .push _ => False
  | .truncate len => len ≤ n
  | .replace id _ => intoUsize id = n

theorem Placed.step_getElem? {r : PlacedRegistry Id T} (hr : r.Placed) (debug : Bool)
    {op : Op Id T} {n : Nat} {v : T} (hv : r.registry.flat[n]? = some v) (hop : ¬ op.Touches n) :
    (step debug op r).2.registry.flat[n]? = some v := by
  have herase : (step debug op r).2.registry = (Registry.step debug op.plain r.registry).2 := by
    rw [step_erases]
  rw [herase]
  have hI := hr.inv
  cases op with
  | push e =>
      rw [Op.plain, Registry.step, Method.run_map]
      -- At the last length `push` panics, and nothing has changed.
      rcases Nat.lt_or_eq_of_le hI.len_le with hlt | hfull
      · obtain ⟨r', hrun, -, hflat⟩ := hI.push_spec e hlt
        rw [hrun, hflat]
        exact (List.getElem?_append_left (List.getElem?_eq_some_iff.1 hv).1).trans hv
      · obtain ⟨err, hrun⟩ := hI.push_full e hfull
        rw [hrun]
        exact hv
  | truncate len =>
      obtain ⟨r', hrun, -, hflat⟩ := hI.truncate_spec len
      rw [Op.plain, Registry.step, Method.run_map, hrun, hflat, List.getElem?_take_of_lt]
      · exact hv
      · exact Nat.lt_of_not_le hop
  | replace id value =>
      rw [Op.plain, Registry.step, Method.run_map, Registry.replace]
      cases hold : r.registry.flat[intoUsize id]? with
      | some old =>
          obtain ⟨r', hrun, -, hflat⟩ := hI.writeAt_of_some debug (fun _ => value) hold
          rw [hrun, hflat, List.getElem?_set_ne hop]
          exact hv
      | none =>
          obtain ⟨err, hrun⟩ := hI.writeAt_of_none debug (fun _ => value)
            (Identifier.intoUsize_le id) hold
          rw [hrun]
          exact hv

/-- What holds of a registry between two calls: chunk `k` has room for `2^k` elements, an element is
at the place of its id, and no call finds a chunk missing. -/
structure Sound (debug : Bool) (r : PlacedRegistry Id T) : Prop where
  room : ∀ {k : Nat} {b : Buffer T}, r.buffers[k]? = some b →
    b.chunk.capacity = 2 ^ k ∧ b.chunk.elems.length ≤ 2 ^ k
  apart : r.addresses.Nodup
  element : ∀ {n : Nat} {v : T}, r.registry.flat[n]? = some v →
    Registry.readPlace r.registry (locate n) = .ok v
  length : r.registry.flat.length = r.len
  push_ok : r.len < usizeMax → ∀ e, ∃ id r', (push e).run r = (.ok id, r')
  truncate_ok : ∀ len, ∃ r', (truncate len).run r = (.ok (), r')
  replace_ok : ∀ id v, intoUsize id < r.len → ∃ old r', (replace debug id v).run r = (.ok old, r')

theorem Placed.sound {r : PlacedRegistry Id T} (hr : r.Placed) (debug : Bool) : r.Sound debug := by
  have hI := hr.inv
  -- A call that returns without the allocations returns with them.
  have hok : ∀ {α : Type} {m : Method Panic (PlacedRegistry Id T) α}
      {m' : Method Panic (Registry Id T) α} {a : α} {s' : Registry Id T},
      Method.Erases registry m m' → m'.run r.registry = (.ok a, s') →
        ∃ r', m.run r = (.ok a, r') := by
    intro α m m' a s' herase hrun
    have h := herase r
    rw [hrun] at h
    exact ⟨(m.run r).2, Prod.ext (congrArg Prod.fst h).symm rfl⟩
  constructor
  · intro k b hb
    have hc : r.registry.chunks[k]? = some b.chunk := by
      show (r.buffers.map Buffer.chunk)[k]? = _
      rw [List.getElem?_map, hb]
      rfl
    refine ⟨hI.chunk_capacity hc, ?_⟩
    rw [hI.chunk_len hc]
    exact Nat.min_le_left _ _
  · exact hr.nodup
  · intro n v hv
    exact hI.readPlace_locate hv
  · exact hI.flat_length
  · intro hlt e
    obtain ⟨s', hrun, -⟩ := hI.push_spec e hlt
    exact ⟨_, hok (push_erases e) hrun⟩
  · intro len
    obtain ⟨s', hrun, -⟩ := hI.truncate_spec len
    exact hok (truncate_erases len) hrun
  · intro id v hlt
    obtain ⟨s', hrun, -⟩ := hI.writeAt_of_some debug (fun _ => v)
      (List.getElem?_eq_getElem (by rw [hI.flat_length]; exact hlt))
    exact ⟨_, hok (writeAt_erases debug (intoUsize id) v) hrun⟩

/-! ## Whole runs -/

theorem Placed.run {r : PlacedRegistry Id T} (hr : r.Placed) (debug : Bool)
    (ops : List (Op Id T)) : (runOps (step debug) ops r).2.Placed :=
  run_invariant (fun op _ hs => hs.of_step debug op) ops r hr

/-- The allocations of a run begin with those it started from. -/
theorem Placed.addresses_prefix (debug : Bool) (ops : List (Op Id T)) :
    ∀ {r : PlacedRegistry Id T}, r.Placed →
      r.addresses <+: (runOps (step debug) ops r).2.addresses := by
  induction ops with
  | nil =>
      intro r _
      exact List.prefix_refl _
  | cons op ops ih =>
      intro r hr
      have hrest := ih (hr.of_step debug op)
      rw [runOps_cons]
      cases hr.step_continues debug op with
      | stay haddresses _ => exact haddresses ▸ hrest
      | extend haddresses _ _ =>
          exact (List.prefix_append _ _).trans (haddresses ▸ hrest)

theorem Placed.length_le_run (debug : Bool) (m : Nat) (ops : List (Op Id T)) :
    ∀ {r : PlacedRegistry Id T}, r.Placed →
      ((runOps (step debug) ops r).2.buffers.length ≤ m ↔
        r.buffers.length ≤ m ∧ Throughout (fun s => s.len < 2 ^ m) (step debug) ops r) := by
  induction ops with
  | nil =>
      intro r hr
      exact ⟨fun h => ⟨h, .nil (hr.len_lt h)⟩, And.left⟩
  | cons op ops ih =>
      intro r hr
      rw [runOps_cons, ih (hr.of_step debug op), hr.length_le_step]
      constructor
      · rintro ⟨⟨h, -⟩, hrest⟩
        exact ⟨h, .cons (hr.len_lt h) hrest⟩
      · rintro ⟨h, hall⟩
        exact ⟨⟨h, by simpa using hall.tail 0⟩, hall.tail⟩

/-- An element that a run neither drops nor overwrites is still there. -/
theorem Placed.run_getElem? (debug : Bool) {n : Nat} {v : T} (ops : List (Op Id T)) :
    ∀ {r : PlacedRegistry Id T}, r.Placed → r.registry.flat[n]? = some v →
      (∀ op ∈ ops, ¬ op.Touches n) → (runOps (step debug) ops r).2.registry.flat[n]? = some v := by
  induction ops with
  | nil =>
      intro r _ hv _
      exact hv
  | cons op ops ih =>
      intro r hr hv hops
      rw [runOps_cons]
      exact ih (hr.of_step debug op) (hr.step_getElem? debug hv (hops op List.mem_cons_self))
        fun op' hop' => hops op' (List.mem_cons_of_mem op hop')

omit [Identifier Id] in
/-- A live element is in the allocation of its chunk, which later allocations leave alone. -/
theorem Placed.exists_addressOf {r s : PlacedRegistry Id T} (hr : r.Placed)
    (hinit : r.addresses <+: s.addresses) {n : Nat} (hn : n < r.len) :
    ∃ p, r.addressOf n = some p ∧ s.addressOf n = some p := by
  have hlt : n < r.registry.flat.length := by
    rw [hr.inv.flat_length]
    exact hn
  obtain ⟨k, offset, c, hloc, -, -, hc, -⟩ := hr.inv.exists_place (List.getElem?_eq_getElem hlt)
  have haddress : ∀ t : PlacedRegistry Id T,
      t.addressOf n = t.addresses[k]?.map fun address => (address, offset) := by
    intro t
    rw [addressOf, addresses, List.getElem?_map, Option.map_map, hloc]
    rfl
  have hk : k < r.addresses.length := by
    have hlt := (List.getElem?_eq_some_iff.1 hc).1
    simpa [registry, addresses] using hlt
  obtain ⟨rest, hrest⟩ := hinit
  refine ⟨(r.addresses[k], offset), ?_, ?_⟩
  · rw [haddress, List.getElem?_eq_getElem hk]
    rfl
  · rw [haddress, ← hrest, List.getElem?_append_left hk, List.getElem?_eq_getElem hk]
    rfl

/-- Collecting is a run of pushes from the empty registry, and so are cloning and deserialising. -/
theorem fromIter_eq_run (debug : Bool) {items : List T} {r : PlacedRegistry Id T}
    (h : fromIter items = .ok r) : r = (runOps (step debug) (items.map .push) empty).2 := by
  unfold fromIter at h
  split at h
  · rename_i reg hrun
    cases h
    refine forEach_eq_runOps (fun e s => ?_) items hrun
    rw [step, Method.run_map_snd, Method.run_bind_pure_snd]
  · cases h

/-! ## Making a registry -/

/-- What collecting `items` makes: a registry of them, as pushing them one by one leaves it, with no
more chunks than that many elements need. -/
structure Collects (debug : Bool) (items : List T) (t : PlacedRegistry Id T) : Prop where
  flat : t.registry.flat = items
  plain : Registry.fromIter items = .ok t.registry
  run : t = (runOps (step debug) (items.map .push) empty).2
  chunks : ∀ m, t.buffers.length ≤ m ↔ items.length < 2 ^ m

theorem Placed.push_next {r : PlacedRegistry Id T} (hr : r.Placed) (debug : Bool)
    (hlt : r.len < usizeMax) (e : T) :
    ∃ id r', (push e).run r = (.ok id, r') ∧ r' = (step debug (.push e) r).2 ∧
      r'.registry.flat = r.registry.flat ++ [e] := by
  obtain ⟨id, r', hrun⟩ := (hr.sound debug).push_ok hlt e
  obtain ⟨s', hplain, -, hflat⟩ := hr.inv.push_spec e hlt
  have herase := push_erases e r
  rw [hrun, hplain] at herase
  have hregistry : s' = r'.registry := congrArg Prod.snd herase
  refine ⟨id, r', hrun, ?_, hregistry ▸ hflat⟩
  rw [step, Method.run_map_snd, hrun]

/-- Collecting succeeds for every list that a registry can hold. -/
theorem fromIter_collects (debug : Bool) {items : List T} (hitems : items.length ≤ usizeMax) :
    ∃ t : PlacedRegistry Id T, fromIter items = .ok t ∧ t.Collects debug items := by
  obtain ⟨t, hrun, ht, hflat, hfew⟩ := Method.forEach_induction
    (fun e => do let _ ← push e)
    -- The chunks are as few as the elements pushed so far ask for.
    (fun done (r : PlacedRegistry Id T) =>
      r.Placed ∧ r.registry.flat = done ∧ ∀ m, done.length < 2 ^ m → r.buffers.length ≤ m)
    items (s := empty) ⟨empty_placed, rfl, fun m _ => Nat.zero_le m⟩ (by
      rintro done e rest r hsplit ⟨hr, rfl, hfew⟩
      have hlen : r.registry.flat.length = r.len := hr.inv.flat_length
      have hlt : r.len < usizeMax := by
        rw [hsplit, List.length_append, List.length_cons] at hitems
        omega
      obtain ⟨id, r', hpush, hstep, hflat⟩ := hr.push_next debug hlt e
      have hr' : r'.Placed := hstep ▸ hr.of_step debug (.push e)
      refine ⟨r', by rw [Method.run_bind_of_ok hpush]; rfl, hr', hflat, ?_⟩
      intro m hm
      rw [List.length_append, List.length_singleton] at hm
      have hlen' : r'.len = r.len + 1 := by
        rw [← show r'.registry.flat.length = r'.len from hr'.inv.flat_length, hflat,
          List.length_append, hlen, List.length_singleton]
      rw [hstep]
      refine (hr.length_le_step debug (.push e) m).2 ⟨hfew m (Nat.lt_of_succ_lt hm), ?_⟩
      rw [← hstep, hlen', ← hlen]
      exact hm)
  have hok : fromIter items = .ok t := by rw [fromIter, hrun]
  have hplain : Registry.fromIter items = .ok t.registry := by
    rw [fromIter_erases, hok]
    rfl
  refine ⟨t, hok, hflat, hplain, fromIter_eq_run debug hok, fun m => ⟨fun h => ?_, hfew m⟩⟩
  have hlen : t.registry.flat.length = t.len := ht.inv.flat_length
  rw [← hflat, hlen]
  exact ht.len_lt h

theorem Placed.clone_collects {r : PlacedRegistry Id T} (hr : r.Placed) (debug : Bool) :
    ∃ c : PlacedRegistry Id T, r.clone = .ok c ∧ c.Collects debug r.registry.flat :=
  fromIter_collects debug (by rw [hr.inv.flat_length]; exact hr.inv.len_le)

/-- The registries a program comes to hold: made empty, collected, deserialised or cloned, and then
changed by calls, which may panic. -/
inductive Reachable (debug : Bool) : PlacedRegistry Id T → Prop
  | empty : Reachable debug empty
  | collect {items : List T} {r : PlacedRegistry Id T} : fromIter items = .ok r → Reachable debug r
  | deserialize {seq : List T} {r : PlacedRegistry Id T} :
      deserialize seq = .ok r → Reachable debug r
  | clone {r c : PlacedRegistry Id T} : Reachable debug r → r.clone = .ok c → Reachable debug c
  | step {r : PlacedRegistry Id T} (op : Op Id T) :
      Reachable debug r → Reachable debug (step debug op r).2

theorem Reachable.placed {debug : Bool} {r : PlacedRegistry Id T} (hr : r.Reachable debug) :
    r.Placed := by
  -- Whatever makes a registry is a run of pushes from the empty one.
  have hmade : ∀ {items : List T} {t : PlacedRegistry Id T}, fromIter items = .ok t → t.Placed := by
    intro items t ht
    rw [fromIter_eq_run debug ht]
    exact empty_placed.run debug _
  induction hr with
  | empty => exact empty_placed
  | collect h => exact hmade h
  | deserialize h => exact hmade h
  | clone _ h _ => exact hmade h
  | step op _ ih => exact ih.of_step debug op

/-- No chunk is outgrown, in whatever way a registry was made and changed.  Every run is one of
`Registry`, in which each chunk keeps the allocation it was made with, so no element moves while its
id is live, and a chunk is added only when a length of the run needs it.  Cloning, collecting and
deserialising succeed, and make a registry as pushing the elements one by one would. -/
theorem run_never_outgrows (debug : Bool) {r : PlacedRegistry Id T} (hr : r.Reachable debug)
    (ops : List (Op Id T)) :
    let s := (runOps (step debug) ops r).2
    r.Sound debug ∧
      runOps (fun op => Registry.step debug op.plain) ops r.registry =
        ((runOps (step debug) ops r).1, s.registry) ∧
      r.addresses <+: s.addresses ∧
      (∀ n < r.len, ∃ p, r.addressOf n = some p ∧ s.addressOf n = some p) ∧
      (∀ n v, r.registry.flat[n]? = some v → (∀ op ∈ ops, ¬ op.Touches n) →
        s.registry.flat[n]? = some v) ∧
      (∀ m, s.buffers.length ≤ m ↔
        r.buffers.length ≤ m ∧ Throughout (fun t => t.len < 2 ^ m) (step debug) ops r) ∧
      (∃ c, r.clone = .ok c ∧ c.Collects debug r.registry.flat) ∧
      ∀ items : List T, items.length ≤ usizeMax →
        ∃ t : PlacedRegistry Id T, fromIter items = .ok t ∧ deserialize items = .ok t ∧
          t.Collects debug items := by
  have hplaced := hr.placed
  have hinit := Placed.addresses_prefix debug ops hplaced
  refine ⟨hplaced.sound debug, run_erases debug ops r, hinit, ?_, ?_, ?_,
    hplaced.clone_collects debug, ?_⟩
  · intro n hn
    exact hplaced.exists_addressOf hinit hn
  · intro n v hv hops
    exact Placed.run_getElem? debug ops hplaced hv hops
  · intro m
    exact Placed.length_le_run debug m ops hplaced
  · intro items hitems
    have hmade : ∃ t : PlacedRegistry Id T, fromIter items = .ok t ∧ t.Collects debug items :=
      fromIter_collects debug hitems
    obtain ⟨t, ht, hcollects⟩ := hmade
    exact ⟨t, ht, ht, hcollects⟩

/-- A registry of three cut down to two elements, then cloned: the clone has room for the third, so
two more pushes leave both elements where they are and add one chunk for the fourth. -/
theorem run_never_outgrows_cloned :
    let r : PlacedRegistry (DerivedId .u32) Nat :=
      (step true (.truncate 2) (step true (.push 12) (step true (.push 11)
        (step true (.push 10) empty).2).2).2).2
    ∃ c, r.clone = .ok c ∧ c.registry.flat = [10, 11] ∧ c.buffers.length = 2 ∧
      let s := (runOps (step true) [.push 12, .push 13] c).2
      s.buffers.length = 3 ∧ s.registry.flat[1]? = some 11 ∧
        ∀ n < c.len, ∃ p, c.addressOf n = some p ∧ s.addressOf n = some p := by
  intro r
  have hr : r.Reachable true := .step _ (.step _ (.step _ (.step _ .empty)))
  obtain ⟨-, -, -, -, -, -, ⟨c, hc, hcollects⟩, -⟩ := run_never_outgrows true hr []
  have hflat : c.registry.flat = [10, 11] := hcollects.flat
  have hrun : c = (runOps (step true) [.push 10, .push 11] (empty : PlacedRegistry _ Nat)).2 :=
    hcollects.run
  obtain ⟨-, -, -, haddress, hkept, -⟩ :=
    run_never_outgrows true (hr.clone hc) [.push 12, .push 13]
  -- Both lengths are those of the run of pushes that the clone is.
  refine ⟨c, hc, hflat, ?_, ?_, ?_, haddress⟩
  · rw [hrun]
    decide
  · rw [hrun]
    decide
  · refine hkept 1 11 (by rw [hflat]; rfl) ?_
    intro op hop
    rcases List.mem_pair.1 hop with rfl | rfl
    · exact id
    · exact id

end PlacedRegistry
end Jstd
