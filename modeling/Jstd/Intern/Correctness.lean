import Mathlib.Data.Finset.Card
import Jstd.Intern.Basic
import Jstd.Registry.Runs

/-!
# What interning keeps

A pool leaks each text once.  So of all pointers ever handed out by it, through vectors, options and
registries in any order, two are equal exactly when they stand for the same text; each still reads
that text after everything that came later, and what comes out has the shape of what went in.

`LawfulIntern` says what an implementation of the trait owes; it holds of strings and passes through
each of the containers, so it holds of all nestings of them.
-/

namespace Jstd

open Foundation

/-! ## One string -/

/-- The set finds what the memory holds, and the memory holds no text twice. -/
structure StringPool.Sound (pool : StringPool) : Prop where
  get_iff : ∀ {s : String} {a : StaticStr},
    pool.set.get? s = some a ↔ pool.leaked[a.address]? = some s
  nodup : pool.leaked.Nodup

namespace StringPool

theorem empty_sound : empty.Sound where
  get_iff := by
    intro s a
    simp [empty]
  nodup := List.nodup_nil

theorem Sound.get_eq_none {pool : StringPool} (h : pool.Sound) {s : String}
    (hs : pool.set.get? s = none) : s ∉ pool.leaked := by
  intro hmem
  obtain ⟨i, hi⟩ := List.mem_iff_getElem?.1 hmem
  have hfound : pool.set.get? s = some ⟨i⟩ := h.get_iff.2 hi
  rw [hs] at hfound
  cases hfound

/-- A string is found where it was leaked, or leaked where the memory ends. -/
theorem Sound.intern_spec {pool : StringPool} (h : pool.Sound) (s : String) :
    ∃ a pool', (intern s).run pool = (.ok a, pool') ∧ pool'.Sound ∧
      pool.leaked <+: pool'.leaked ∧ pool'.leaked[a.address]? = some s ∧
      ∀ t ∈ pool'.leaked, t ∈ pool.leaked ∨ t = s := by
  cases hget : pool.set.get? s with
  | some a =>
      refine ⟨a, pool, ?_, h, List.prefix_rfl, h.get_iff.1 hget, fun t ht => .inl ht⟩
      simp only [intern, Method.run_bind_get, hget, Method.run_pure]
  | none =>
      have hnot := h.get_eq_none hget
      refine ⟨⟨pool.leaked.length⟩,
        { set := pool.set.insert s ⟨pool.leaked.length⟩, leaked := pool.leaked ++ [s] },
        ?_, ⟨?_, ?_⟩, List.prefix_append _ _, ?_, ?_⟩
      · simp only [intern, Method.run_bind_get, hget]
        rfl
      · intro t a
        change (pool.set.insert s ⟨pool.leaked.length⟩).get? t = some a ↔
          (pool.leaked ++ [s])[a.address]? = some t
        rw [HashMap.get?_insert, List.getElem?_append]
        by_cases hlt : a.address < pool.leaked.length
        · -- An old address: the new text is not there.
          rw [if_pos hlt, ← h.get_iff]
          by_cases hts : t = s
          · rw [if_pos hts, hts, hget]
            refine ⟨fun heq => ?_, fun heq => by cases heq⟩
            obtain rfl := Option.some.inj heq
            exact absurd hlt (Nat.lt_irrefl _)
          · rw [if_neg hts]
        -- An address at the end or past it: only the new text can be there.
        · rw [if_neg hlt]
          by_cases hts : t = s
          · subst hts
            rw [if_pos rfl, Option.some.injEq, List.getElem?_singleton,
              Option.ite_none_right_eq_some, and_iff_left rfl]
            constructor
            · rintro rfl
              exact Nat.sub_self _
            · intro hzero
              have heq : a.address = pool.leaked.length := by omega
              rw [← heq]
          · rw [if_neg hts, h.get_iff, List.getElem?_eq_none (Nat.le_of_not_lt hlt),
              List.getElem?_singleton, Option.ite_none_right_eq_some]
            constructor
            · intro heq
              cases heq
            · rintro ⟨-, heq⟩
              exact absurd (Option.some.inj heq).symm hts
      · exact List.nodup_append.2 ⟨h.nodup, List.nodup_singleton s, by
          rintro t ht u hu rfl
          rw [List.mem_singleton.1 hu] at ht
          exact hnot ht⟩
      · change (pool.leaked ++ [s])[pool.leaked.length]? = some s
        rw [List.getElem?_append_right (Nat.le_refl _), Nat.sub_self]
        rfl
      · intro t ht
        exact (List.mem_append.1 ht).imp id List.mem_singleton.1

end StringPool

/-! ## The trait -/

/-- What an implementation owes: in the memory it leaves, what comes out reads as what went in. -/
class LawfulIntern (T : Type) {Static : outParam Type} [Intern T Static] where
  /-- Values that can be interned without a panic. -/
  Valid : T → Prop
  texts : T → List String
  pointers : Static → List StaticStr
  Reads : List String → Static → T → Prop
  reads_pointers : ∀ {mem y x}, Reads mem y x →
    List.Forall₂ (fun (a : StaticStr) s => mem[a.address]? = some s) (pointers y) (texts x)
  reads_mono : ∀ {mem mem' y x}, mem <+: mem' → Reads mem y x → Reads mem' y x
  intern_spec : ∀ {x}, Valid x → ∀ {pool : StringPool}, pool.Sound →
    ∃ y pool', (Intern.intern x).run pool = (.ok y, pool') ∧ pool'.Sound ∧
      pool.leaked <+: pool'.leaked ∧ Reads pool'.leaked y x ∧
      ∀ s ∈ pool'.leaked, s ∈ pool.leaked ∨ s ∈ texts x

namespace LawfulIntern

variable {T Static : Type} [Intern T Static]

/-- What lies in a memory stays where it is when the memory grows. -/
theorem getElem?_of_prefix {mem mem' : List String} (h : mem <+: mem') {i : Nat} {s : String}
    (hs : mem[i]? = some s) : mem'[i]? = some s := by
  obtain ⟨more, rfl⟩ := h
  rw [List.getElem?_append_left (List.getElem?_eq_some_iff.1 hs).1, hs]

instance : LawfulIntern String where
  Valid _ := True
  texts s := [s]
  pointers a := [a]
  Reads mem a s := mem[a.address]? = some s
  reads_pointers h := .cons h .nil
  reads_mono hmem h := getElem?_of_prefix hmem h
  intern_spec := by
    rintro s - pool hpool
    obtain ⟨a, pool', hrun, hpool', hgrow, hread, hnew⟩ := hpool.intern_spec s
    exact ⟨a, pool', hrun, hpool', hgrow, hread, fun t ht =>
      (hnew t ht).imp id List.mem_singleton.2⟩

variable [LawfulIntern T]

/-- Element by element, by induction on the vector. -/
theorem internAll_spec (xs : List T) (hxs : ∀ x ∈ xs, Valid x) :
    ∀ {pool : StringPool}, pool.Sound →
      ∃ ys pool', (Intern.internAll xs).run pool = (.ok ys, pool') ∧ pool'.Sound ∧
        pool.leaked <+: pool'.leaked ∧ List.Forall₂ (Reads pool'.leaked) ys xs ∧
        ∀ s ∈ pool'.leaked, s ∈ pool.leaked ∨ s ∈ xs.flatMap texts := by
  induction xs with
  | nil =>
      intro pool hpool
      exact ⟨[], pool, rfl, hpool, List.prefix_rfl, .nil, fun s hs => .inl hs⟩
  | cons x xs ih =>
      intro pool hpool
      rw [List.forall_mem_cons] at hxs
      obtain ⟨y, pool₁, hrun₁, hpool₁, hgrow₁, hread₁, hnew₁⟩ := intern_spec hxs.1 hpool
      obtain ⟨ys, pool', hrun, hpool', hgrow, hread, hnew⟩ := ih hxs.2 hpool₁
      refine ⟨y :: ys, pool', ?_, hpool', hgrow₁.trans hgrow,
        .cons (reads_mono hgrow hread₁) hread, fun s hs => ?_⟩
      · rw [Intern.internAll, Method.run_bind_of_ok hrun₁, Method.run_bind_of_ok hrun,
          Method.run_pure]
      · rw [List.flatMap_cons, List.mem_append]
        rcases hnew s hs with hs | hs
        · exact (hnew₁ s hs).imp id .inl
        · exact .inr (.inr hs)

theorem forall₂_pointers {mem : List String} {ys : List Static} {xs : List T}
    (h : List.Forall₂ (Reads mem) ys xs) :
    List.Forall₂ (fun (a : StaticStr) s => mem[a.address]? = some s)
      (ys.flatMap (pointers T)) (xs.flatMap texts) :=
  List.rel_flatMap h fun _ _ hread => reads_pointers hread

instance : LawfulIntern (List T) where
  Valid xs := ∀ x ∈ xs, Valid x
  texts xs := xs.flatMap texts
  pointers ys := ys.flatMap (pointers T)
  Reads mem ys xs := List.Forall₂ (Reads mem) ys xs
  reads_pointers h := forall₂_pointers h
  reads_mono hmem h := h.imp fun _ _ hread => reads_mono hmem hread
  intern_spec := fun hxs => internAll_spec _ hxs

instance : LawfulIntern (Option T) where
  Valid x := ∀ v ∈ x, Valid v
  texts x := x.toList.flatMap texts
  pointers y := y.toList.flatMap (pointers T)
  Reads mem y x := Option.Rel (Reads mem) y x
  reads_pointers h := by
    cases h with
    | none => exact .nil
    | some hread => exact forall₂_pointers (.cons hread .nil)
  reads_mono hmem h := by
    cases h with
    | none => exact .none
    | some hread => exact .some (reads_mono hmem hread)
  intern_spec := by
    intro x hx pool hpool
    cases x with
    | none => exact ⟨none, pool, rfl, hpool, List.prefix_rfl, .none, fun s hs => .inl hs⟩
    | some v =>
        obtain ⟨w, pool', hrun, hpool', hgrow, hread, hnew⟩ := intern_spec (hx v rfl) hpool
        refine ⟨some w, pool', ?_, hpool', hgrow, .some hread, fun s hs => ?_⟩
        · change (Intern.intern v >>= fun w => pure (some w)).run pool = _
          rw [Method.run_bind_of_ok hrun, Method.run_pure]
        · rw [Option.toList_some, List.flatMap_singleton]
          exact hnew s hs

/-- One turn of the loop of `from_iter`, while there is room. -/
theorem pushInterned_spec {Id : Type} [Identifier Id] {x : T} (hx : Valid x) {pool : StringPool}
    {reg : Registry Id Static} (hpool : pool.Sound) (hreg : reg.Inv) (hlt : reg.len < usizeMax) :
    ∃ y pool' reg', (Intern.pushInterned x).run (pool, reg) = (.ok (), pool', reg') ∧
      pool'.Sound ∧ pool.leaked <+: pool'.leaked ∧ reg'.Inv ∧ reg'.flat = reg.flat ++ [y] ∧
      Reads pool'.leaked y x ∧ ∀ s ∈ pool'.leaked, s ∈ pool.leaked ∨ s ∈ texts x := by
  obtain ⟨y, pool', hrun, hpool', hgrow, hread, hnew⟩ := intern_spec hx hpool
  obtain ⟨reg', hpush, hreg', hflat⟩ := hreg.push_spec y hlt
  refine ⟨y, pool', reg', ?_, hpool', hgrow, hreg', hflat, hread, hnew⟩
  have hfirst : (Method.focus Prod.fst (fun s pool => (pool, s.2)) (Intern.intern x)).run
      (pool, reg) = (.ok y, pool', reg) :=
    Method.run_focus_of_ok hrun
  have hsecond : (Method.focus Prod.snd (fun s reg => (s.1, reg)) (Registry.push y)).run
      (pool', reg) = (.ok (fromUsize reg.len : Id), pool', reg') :=
    Method.run_focus_of_ok hpush
  rw [Intern.pushInterned, Method.run_bind_of_ok hfirst, Method.run_bind_of_ok hsecond,
    Method.run_pure]

/-- The loop of `from_iter` after the items of `done`, entered with the memory `mem`. -/
structure Filled {Id : Type} (mem : List String) (done : List T)
    (s : StringPool × Registry Id Static) : Prop where
  sound : s.1.Sound
  grows : mem <+: s.1.leaked
  inv : s.2.Inv
  reads : List.Forall₂ (Reads s.1.leaked) s.2.flat done
  leaked : ∀ t ∈ s.1.leaked, t ∈ mem ∨ t ∈ done.flatMap texts

theorem Filled.turn {Id : Type} [Identifier Id] {mem : List String} {done : List T}
    {s : StringPool × Registry Id Static} (h : Filled mem done s) {x : T} (hx : Valid x)
    (hroom : done.length < usizeMax) :
    ∃ s', (Intern.pushInterned x).run s = (.ok (), s') ∧ Filled mem (done ++ [x]) s' := by
  have hlen : s.2.len = done.length := h.inv.flat_length.symm.trans h.reads.length_eq
  obtain ⟨y, pool', reg', hrun, hpool', hgrow, hreg', hflat, hread, hnew⟩ :=
    pushInterned_spec hx h.sound h.inv (hlen ▸ hroom)
  refine ⟨(pool', reg'), hrun, hpool', h.grows.trans hgrow, hreg', ?_, fun t ht => ?_⟩
  · -- What was pushed before still reads as it did.
    change List.Forall₂ (Reads pool'.leaked) reg'.flat (done ++ [x])
    rw [hflat]
    exact List.rel_append (h.reads.imp fun _ _ => reads_mono hgrow) (.cons hread .nil)
  · rw [List.flatMap_append, List.mem_append, List.flatMap_singleton]
    rcases hnew t ht with ht | ht
    · exact (h.leaked t ht).imp id .inl
    · exact .inr (.inr ht)

/-- The loop fills an empty registry with what each item becomes. -/
theorem forEach_pushInterned (Id : Type) [Identifier Id] (xs : List T) (hxs : ∀ x ∈ xs, Valid x)
    (hroom : xs.length ≤ usizeMax) {pool : StringPool} (hpool : pool.Sound) :
    ∃ s, (Method.forEach Intern.pushInterned xs).run
        (pool, (Registry.empty : Registry Id Static)) = (.ok (), s) ∧ Filled pool.leaked xs s := by
  refine Method.forEach_induction Intern.pushInterned (Filled pool.leaked) xs
    ⟨hpool, List.prefix_rfl, Registry.empty_inv, .nil, fun t ht => .inl ht⟩ ?_
  rintro done x rest s rfl h
  refine h.turn (hxs x (List.mem_append_right done List.mem_cons_self)) ?_
  rw [List.length_append, List.length_cons] at hroom
  omega

theorem intoIter_inner {Id : Type} [Identifier Id] (r : Registry Id T) :
    r.intoIter.map Identified.inner = r.flat := by
  rw [Registry.intoIter, Registry.numbered, List.map_map]
  exact List.zipIdx_map_fst 0 r.flat

instance {Id : Type} [Identifier Id] : LawfulIntern (Registry Id T) where
  Valid r := r.Inv ∧ ∀ x ∈ r.flat, Valid x
  texts r := r.flat.flatMap texts
  pointers r := r.flat.flatMap (pointers T)
  Reads mem r' r := r'.Inv ∧ List.Forall₂ (Reads mem) r'.flat r.flat
  reads_pointers h := forall₂_pointers h.2
  reads_mono hmem h := h.imp_right fun h => h.imp fun _ _ hread => reads_mono hmem hread
  intern_spec := by
    rintro r ⟨hr, hxs⟩ pool hpool
    have hroom : r.flat.length ≤ usizeMax := hr.flat_length ▸ hr.len_le
    obtain ⟨⟨pool', r'⟩, hrun, h⟩ := forEach_pushInterned Id r.flat hxs hroom hpool
    refine ⟨r', pool', ?_, h.sound, h.grows, ⟨h.inv, h.reads⟩, h.leaked⟩
    simp only [Intern.intern, Method.run_bind_get, intoIter_inner, hrun]
    rfl

end LawfulIntern

/-! ## Runs -/

open LawfulIntern (Valid Reads texts pointers)

/-- A pool in use: the pointers it has handed out, and the texts they were asked for. -/
inductive Interned : StringPool → List StaticStr → List String → Prop
  | empty : Interned .empty [] []
  | intern {T Static : Type} [Intern T Static] [LawfulIntern T] {pool pool' : StringPool}
      {issued : List StaticStr} {asked : List String} (h : Interned pool issued asked) {x : T}
      (hx : Valid x) {y : Static} (hrun : (Intern.intern x).run pool = (.ok y, pool')) :
      Interned pool' (issued ++ pointers T y) (asked ++ texts x)

/-- Lists whose elements are related in order, read at one index. -/
theorem getElem?_rel {α β : Type} {R : α → β → Prop} {as : List α} {bs : List β}
    (h : List.Forall₂ R as bs) : ∀ i : Nat, Option.Rel R as[i]? bs[i]? := by
  induction h with
  | nil => exact fun _ => .none
  | cons hab _ ih =>
      intro i
      cases i with
      | zero => exact .some hab
      | succ i => exact ih i

theorem getElem?_left {α β : Type} {R : α → β → Prop} {as : List α} {bs : List β}
    (h : List.Forall₂ R as bs) {i : Nat} {b : β} (hb : bs[i]? = some b) :
    ∃ a, as[i]? = some a ∧ R a b := by
  have hrel := getElem?_rel h i
  generalize as[i]? = oa at hrel
  generalize bs[i]? = ob at hrel hb
  cases hrel with
  | none => cases hb
  | some hab =>
      cases hb
      exact ⟨_, rfl, hab⟩

/-- The pool is sound, every pointer reads its text, and nothing else is in the memory. -/
theorem Interned.sound {pool : StringPool} {issued : List StaticStr} {asked : List String}
    (h : Interned pool issued asked) :
    pool.Sound ∧
      List.Forall₂ (fun (a : StaticStr) s => pool.leaked[a.address]? = some s) issued asked ∧
      ∀ s, s ∈ pool.leaked ↔ s ∈ asked := by
  induction h with
  | empty => exact ⟨StringPool.empty_sound, .nil, fun s => Iff.rfl⟩
  | @intern T Static _ _ pool pool' issued asked h x hx y hrun ih =>
      obtain ⟨hpool, hreads, hmem⟩ := ih
      obtain ⟨y', pool'', hrun', hpool', hgrow, hread, hnew⟩ := LawfulIntern.intern_spec hx hpool
      rw [hrun] at hrun'
      obtain ⟨hy, rfl⟩ := Prod.mk.inj hrun'
      obtain rfl := Except.ok.inj hy
      have hpointers := LawfulIntern.reads_pointers hread
      refine ⟨hpool', List.rel_append ?_ hpointers, fun s => ?_⟩
      · exact hreads.imp fun _ _ => LawfulIntern.getElem?_of_prefix hgrow
      · rw [List.mem_append, ← hmem]
        refine ⟨hnew s, ?_⟩
        rintro (hs | hs)
        · exact hgrow.subset hs
        · -- A text that was asked for has a pointer that reads it.
          obtain ⟨i, hi⟩ := List.mem_iff_getElem?.1 hs
          obtain ⟨a, -, hat⟩ := getElem?_left hpointers hi
          exact List.mem_of_getElem? hat

variable {pool : StringPool} {issued : List StaticStr} {asked : List String}

/-- After any run: each pointer ever handed out reads the text it was asked for, two of them are
equal exactly when their texts are, there is one box for each text, and the next value comes out in
the shape it went in, with all this memory still in place. -/
theorem interned_canonical (h : Interned pool issued asked) :
    (∀ i : Nat, (issued[i]?.bind fun a => pool.leaked[a.address]?) = asked[i]?) ∧
      (∀ i j : Nat, i < issued.length → j < issued.length →
        (issued[i]? = issued[j]? ↔ asked[i]? = asked[j]?)) ∧
      pool.leaked.length = asked.toFinset.card ∧
      ∀ {T Static : Type} [Intern T Static] [LawfulIntern T] (x : T), Valid x →
        ∃ y pool', (Intern.intern x).run pool = (.ok y, pool') ∧
          Reads pool'.leaked y x ∧ pool.leaked <+: pool'.leaked := by
  obtain ⟨hpool, hreads, hmem⟩ := h.sound
  have hlength := hreads.length_eq
  have hread : ∀ i : Nat, (issued[i]?.bind fun a => pool.leaked[a.address]?) = asked[i]? := by
    intro i
    cases hasked : asked[i]? with
    | none =>
        rw [List.getElem?_eq_none_iff, ← hlength, ← List.getElem?_eq_none_iff] at hasked
        rw [hasked, Option.bind_none]
    | some s =>
        obtain ⟨a, ha, hat⟩ := getElem?_left hreads hasked
        rw [ha, Option.bind_some, hat]
  refine ⟨hread, ?_, ?_, ?_⟩
  · intro i j hi hj
    constructor
    · intro heq
      rw [← hread, ← hread, heq]
    · intro heq
      obtain ⟨s, hs⟩ : ∃ s, asked[i]? = some s :=
        ⟨_, List.getElem?_eq_getElem (hlength ▸ hi)⟩
      obtain ⟨a, ha, hat⟩ := getElem?_left hreads hs
      obtain ⟨b, hb, hbt⟩ := getElem?_left hreads (heq ▸ hs)
      -- One text lies at one address.
      have hlt := (List.getElem?_eq_some_iff.1 hat).1
      have haddress : a.address = b.address :=
        (List.getElem?_inj hlt hpool.nodup).1 (hat.trans hbt.symm)
      rw [ha, hb]
      cases a
      cases b
      exact congrArg (fun n => some (StaticStr.mk n)) haddress
  · rw [← List.toFinset_card_of_nodup hpool.nodup]
    refine congrArg Finset.card (Finset.ext fun s => ?_)
    rw [List.mem_toFinset, List.mem_toFinset, hmem]
  · intro T Static _ _ x hx
    obtain ⟨y, pool', hrun, -, hgrow, hread, -⟩ := LawfulIntern.intern_spec hx hpool
    exact ⟨y, pool', hrun, hread, hgrow⟩

/-- Interned twice in one vector, a text is leaked once. -/
theorem interned_canonical_twice :
    ∃ pool issued, Interned pool issued ["a", "a"] ∧ issued[0]? = issued[1]? ∧
      pool.leaked.length = 1 := by
  have h : Interned _ (pointers (List String) [⟨0⟩, ⟨0⟩]) (texts ["a", "a"]) :=
    Interned.empty.intern (x := ["a", "a"]) (fun _ _ => trivial) rfl
  obtain ⟨-, hiff, hcard, -⟩ := interned_canonical h
  exact ⟨_, _, h, (hiff 0 1 (by decide) (by decide)).2 rfl, hcard⟩

/-! ## Registries -/

section

variable {Id T Static : Type} [Identifier Id]

theorem iter_ids (r : Registry Id T) :
    r.iter.map Identified.id = (List.range' 0 r.flat.length).map fromUsize := by
  rw [Registry.iter, Registry.numbered, List.map_map, ← List.zipIdx_map_snd 0 r.flat,
    List.map_map]
  rfl

variable [Intern T Static] [LawfulIntern T]

/-- Interning a registry never panics and keeps its ids: the result has the same length and the same
ids in order, and through each id, with and without debug assertions, it reads the static of what
was read before, or panics where the original does. -/
theorem intern_registry_ids (h : Interned pool issued asked) {r : Registry Id T}
    (hr : r.Reachable) (hvalid : ∀ x ∈ r.flat, Valid x) :
    ∃ (r' : Registry Id Static) (pool' : StringPool), (Intern.intern r).run pool = (.ok r', pool') ∧
      r'.len = r.len ∧ r'.iter.map Identified.id = r.iter.map Identified.id ∧
      ∀ debug id, Option.Rel (Reads pool'.leaked) (r'.index debug id).toOption
        (r.index debug id).toOption := by
  have hr₀ : Valid r := ⟨hr.inv, hvalid⟩
  obtain ⟨r', pool', hrun, -, -, ⟨hr', hread⟩, -⟩ := LawfulIntern.intern_spec hr₀ h.sound.1
  have hlength := hread.length_eq
  refine ⟨r', pool', hrun, ?_, ?_, fun debug id => ?_⟩
  · calc r'.len = r'.flat.length := hr'.flat_length.symm
      _ = r.flat.length := hlength
      _ = r.len := hr.inv.flat_length
  · rw [iter_ids, iter_ids, hlength]
  · have hle := Identifier.intoUsize_le id
    rw [Registry.index, Registry.index, hr'.readAt_eq debug hle, hr.inv.readAt_eq debug hle]
    exact getElem?_rel hread (intoUsize id)

end

/-- Two equal texts pushed, and interned into an empty pool. -/
theorem intern_registry_ids_pair :
    ∃ (r : Registry (DerivedId .u32) String) (r' : Registry (DerivedId .u32) StaticStr)
      (pool' : StringPool), r.flat = ["a", "a"] ∧
        (Intern.intern r).run StringPool.empty = (.ok r', pool') ∧ r'.len = r.len := by
  obtain ⟨r, hr, hflat⟩ :=
    @Registry.exists_reachable_replicate (DerivedId .u32) _ _ "a" 2 (by decide)
  obtain ⟨r', pool', hrun, hlen, -⟩ :=
    intern_registry_ids .empty hr (fun _ _ => trivial)
  exact ⟨r, r', pool', hflat, hrun, hlen⟩

end Jstd
