import Mathlib.Data.List.Basic

/-!
# Method — calls that mutate their receiver and may fail part-way

A `&mut self` call either returns a value or fails, and in both cases leaves *some* receiver
behind.  `Method ε σ α` keeps that receiver, so that "the call fails before any field changes"
is a statement that can be proved rather than a convention of the model.

`ε` is the type of failures, `σ` the receiver, `α` the value returned.
-/

namespace Jstd
namespace Foundation

/-- A call on a receiver of type `σ`: its result, and the receiver it leaves behind. -/
def Method (ε σ α : Type) : Type :=
  σ → Except ε α × σ

namespace Method

variable {ε σ α β : Type}

/-- Make the call on the receiver `s`. -/
def run (m : Method ε σ α) (s : σ) : Except ε α × σ :=
  m s

instance : Monad (Method ε σ) where
  pure a := fun s => (.ok a, s)
  bind m f := fun s =>
    match m.run s with
    | (.ok a, s') => (f a).run s'
    | (.error e, s') => (.error e, s')

instance : MonadStateOf σ (Method ε σ) where
  get := fun s => (.ok s, s)
  set s' := fun _ => (.ok ⟨⟩, s')
  modifyGet f := fun s => (.ok (f s).1, (f s).2)

instance : MonadExceptOf ε (Method ε σ) where
  throw e := fun s => (.error e, s)
  tryCatch m handle := fun s =>
    match m.run s with
    | (.ok a, s') => (.ok a, s')
    | (.error e, s') => (handle e).run s'

/-- A computation that reads nothing of the receiver. -/
def lift (x : Except ε α) : Method ε σ α :=
  fun s => (x, s)

instance : MonadLift (Except ε) (Method ε σ) where
  monadLift := lift

/-- A call on a part of the receiver. -/
def focus {τ : Type} (part : σ → τ) (put : σ → τ → σ) (call : Method ε τ α) : Method ε σ α :=
  fun s => ((call.run (part s)).1, put s (call.run (part s)).2)

/-- Go on only when `p` holds. -/
def require (p : Prop) [Decidable p] (e : ε) : Method ε σ Unit :=
  if p then pure () else throw e

/-! ## What each primitive does to a receiver -/

@[simp] theorem run_pure (a : α) (s : σ) : (pure a : Method ε σ α).run s = (.ok a, s) := rfl

@[simp] theorem run_get (s : σ) : (get : Method ε σ σ).run s = (.ok s, s) := rfl

@[simp] theorem run_modify (f : σ → σ) (s : σ) :
    (modify f : Method ε σ PUnit).run s = (.ok ⟨⟩, f s) := rfl

@[simp] theorem run_throw (e : ε) (s : σ) :
    (throw e : Method ε σ α).run s = (.error e, s) := rfl

@[simp] theorem run_liftM (x : Except ε α) (s : σ) :
    (liftM x : Method ε σ α).run s = (x, s) := rfl

@[simp] theorem run_monadLift (x : Except ε α) (s : σ) :
    (monadLift x : Method ε σ α).run s = (x, s) := rfl

theorem run_focus_of_ok {τ : Type} {part : σ → τ} {put : σ → τ → σ} {call : Method ε τ α} {s : σ}
    {t : τ} {a : α} (h : call.run (part s) = (.ok a, t)) :
    (focus part put call).run s = (.ok a, put s t) := by
  show ((call.run (part s)).1, put s (call.run (part s)).2) = _
  rw [h]

theorem run_bind (m : Method ε σ α) (f : α → Method ε σ β) (s : σ) :
    (m >>= f).run s =
      match m.run s with
      | (.ok a, s') => (f a).run s'
      | (.error e, s') => (.error e, s') := rfl

/-- A call that succeeds hands its value and its receiver to the rest. -/
theorem run_bind_of_ok {m : Method ε σ α} {s s' : σ} {a : α} (h : m.run s = (.ok a, s'))
    (f : α → Method ε σ β) : (m >>= f).run s = (f a).run s' := by
  simp [run_bind, h]

/-- A call that fails ends the whole computation where it stands. -/
theorem run_bind_of_error {m : Method ε σ α} {s s' : σ} {e : ε} (h : m.run s = (.error e, s'))
    (f : α → Method ε σ β) : (m >>= f).run s = (.error e, s') := by
  simp [run_bind, h]

/-! Sequencing after a primitive; each holds by computation. -/

@[simp] theorem run_bind_pure (a : α) (f : α → Method ε σ β) (s : σ) :
    ((pure a : Method ε σ α) >>= f).run s = (f a).run s := rfl

@[simp] theorem run_bind_get (f : σ → Method ε σ β) (s : σ) :
    ((get : Method ε σ σ) >>= f).run s = (f s).run s := rfl

@[simp] theorem run_bind_modify (g : σ → σ) (f : PUnit → Method ε σ β) (s : σ) :
    ((modify g : Method ε σ PUnit) >>= f).run s = (f ⟨⟩).run (g s) := rfl

@[simp] theorem run_bind_liftM_ok (a : α) (f : α → Method ε σ β) (s : σ) :
    ((liftM (Except.ok a : Except ε α) : Method ε σ α) >>= f).run s = (f a).run s := rfl

@[simp] theorem run_bind_liftM_error (e : ε) (f : α → Method ε σ β) (s : σ) :
    ((liftM (Except.error e : Except ε α) : Method ε σ α) >>= f).run s = (.error e, s) := rfl

theorem run_map (f : α → β) (m : Method ε σ α) (s : σ) :
    (f <$> m).run s = ((m.run s).1.map f, (m.run s).2) := by
  show (m >>= fun a => pure (f a)).run s = _
  rw [run_bind]
  rcases m.run s with ⟨result, s'⟩
  cases result with
  | ok a => rfl
  | error e => rfl

theorem run_map_snd (f : α → β) (m : Method ε σ α) (s : σ) :
    ((f <$> m).run s).2 = (m.run s).2 := by
  rw [run_map]

theorem run_bind_pure_snd (m : Method ε σ α) (b : β) (s : σ) :
    ((m >>= fun _ => pure b).run s).2 = (m.run s).2 := by
  rw [run_bind]
  rcases m.run s with ⟨result, s'⟩
  cases result with
  | ok a => rfl
  | error e => rfl

theorem run_require_of_pos {p : Prop} [Decidable p] (hp : p) (e : ε) (s : σ) :
    (require p e : Method ε σ Unit).run s = (.ok (), s) := by
  simp [require, hp]

theorem run_require_of_neg {p : Prop} [Decidable p] (hp : ¬ p) (e : ε) (s : σ) :
    (require p e : Method ε σ Unit).run s = (.error e, s) := by
  simp [require, hp]

/-! ## Loops over a list -/

/-- `for x in xs { body(x) }`. -/
def forEach (body : β → Method ε σ Unit) : List β → Method ε σ Unit
  | [] => pure ()
  | x :: xs => do
      body x
      forEach body xs

@[simp] theorem forEach_nil (body : β → Method ε σ Unit) (s : σ) :
    (forEach body []).run s = (.ok (), s) := rfl

theorem forEach_cons_of_ok {body : β → Method ε σ Unit} {x : β} {s s' : σ}
    (h : (body x).run s = (.ok (), s')) (xs : List β) :
    (forEach body (x :: xs)).run s = (forEach body xs).run s' :=
  run_bind_of_ok h fun _ => forEach body xs

/-- The loop rule: an invariant indexed by what has been consumed is carried to the end. -/
theorem forEach_induction (body : β → Method ε σ Unit) (I : List β → σ → Prop)
    (xs : List β) {s : σ} (h0 : I [] s)
    (hstep : ∀ done x rest s, xs = done ++ x :: rest → I done s →
      ∃ s', (body x).run s = (.ok (), s') ∧ I (done ++ [x]) s') :
    ∃ s', (forEach body xs).run s = (.ok (), s') ∧ I xs s' := by
  have main : ∀ (todo done : List β) (s : σ), xs = done ++ todo → I done s →
      ∃ s', (forEach body todo).run s = (.ok (), s') ∧ I xs s' := by
    intro todo
    induction todo with
    | nil =>
        intro done s hxs hI
        refine ⟨s, rfl, ?_⟩
        simpa [hxs] using hI
    | cons x todo ih =>
        intro done s hxs hI
        obtain ⟨s', hbody, hI'⟩ := hstep done x todo s hxs hI
        rw [forEach_cons_of_ok hbody]
        exact ih (done ++ [x]) s' (by simpa using hxs) hI'
  exact main xs [] s rfl h0

/-- `for i in lo..lo + count { body(i) }`. -/
def forUp (lo count : Nat) (body : Nat → Method ε σ Unit) : Method ε σ Unit :=
  forEach body (List.range' lo count)

/-- `for i in (lo..lo + count).rev() { body(i) }`. -/
def forDown (lo : Nat) (body : Nat → Method ε σ Unit) : Nat → Method ε σ Unit
  | 0 => pure ()
  | count + 1 => do
      body (lo + count)
      forDown lo body count

theorem forUp_induction (lo count : Nat) (body : Nat → Method ε σ Unit) (I : Nat → σ → Prop)
    {s : σ} (h0 : I lo s)
    (hstep : ∀ i s, lo ≤ i → i < lo + count → I i s →
      ∃ s', (body i).run s = (.ok (), s') ∧ I (i + 1) s') :
    ∃ s', (forUp lo count body).run s = (.ok (), s') ∧ I (lo + count) s' := by
  induction count generalizing lo s with
  | zero => exact ⟨s, rfl, h0⟩
  | succ count ih =>
      obtain ⟨s₁, hrun, hI⟩ := hstep lo s (Nat.le_refl lo) (by omega) h0
      obtain ⟨s', hrest, hI'⟩ := ih (lo + 1) hI fun i s hlo hi => hstep i s (by omega) (by omega)
      refine ⟨s', ?_, by rwa [show lo + (count + 1) = lo + 1 + count by omega]⟩
      rw [forUp, List.range'_succ, forEach_cons_of_ok hrun]
      exact hrest

theorem forDown_induction (lo : Nat) {count : Nat} (body : Nat → Method ε σ Unit) (I : Nat → σ → Prop)
    {s : σ} (h0 : I count s)
    (hstep : ∀ k s, k < count → I (k + 1) s →
      ∃ s', (body (lo + k)).run s = (.ok (), s') ∧ I k s') :
    ∃ s', (forDown lo body count).run s = (.ok (), s') ∧ I 0 s' := by
  induction count generalizing s with
  | zero => exact ⟨s, rfl, h0⟩
  | succ count ih =>
      obtain ⟨s₁, hrun, hI⟩ := hstep count s (Nat.lt_succ_self count) h0
      obtain ⟨s', hrest, hI'⟩ := ih hI fun k s hk => hstep k s (by omega)
      exact ⟨s', by rw [forDown, run_bind_of_ok hrun, hrest], hI'⟩

/-! ## What a call keeps, whether or not it fails -/

/-- `I` holds of the receiver left behind, if it held before. -/
def Keeps (I : σ → Prop) (m : Method ε σ α) : Prop :=
  ∀ s, I s → I (m.run s).2

namespace Keeps

variable {I : σ → Prop}

theorem pure (a : α) : Keeps I (Pure.pure a : Method ε σ α) :=
  fun _ hs => hs

theorem get : Keeps I (MonadState.get : Method ε σ σ) :=
  fun _ hs => hs

theorem liftM (x : Except ε α) : Keeps I (MonadLift.monadLift x : Method ε σ α) :=
  fun _ hs => hs

theorem modify {f : σ → σ} (h : ∀ s, I s → I (f s)) :
    Keeps I (modifyGet (fun s => (⟨⟩, f s)) : Method ε σ PUnit) :=
  h

theorem bind {m : Method ε σ α} {f : α → Method ε σ β} (hm : Keeps I m)
    (hf : ∀ a, Keeps I (f a)) : Keeps I (m >>= f) := by
  intro s hs
  have hm' := hm s hs
  rw [run_bind]
  rcases hrun : m.run s with ⟨result, s'⟩
  rw [hrun] at hm'
  cases result with
  | ok a => exact hf a s' hm'
  | error e => exact hm'

theorem map {m : Method ε σ α} (f : α → β) (hm : Keeps I m) : Keeps I (f <$> m) := by
  intro s hs
  rw [run_map]
  exact hm s hs

theorem forEach {body : β → Method ε σ Unit} (hbody : ∀ x, Keeps I (body x)) (xs : List β) :
    Keeps I (forEach body xs) := by
  induction xs with
  | nil => exact pure ()
  | cons x xs ih => exact bind (hbody x) fun _ => ih

end Keeps

/-! ## What a call does seen through a projection of the receiver -/

variable {τ γ : Type}

/-- `m'` does to `f s` what `m` does to `s`. -/
def Erases (f : σ → τ) (m : Method ε σ α) (m' : Method ε τ α) : Prop :=
  ∀ s, m'.run (f s) = ((m.run s).1, f (m.run s).2)

namespace Erases

variable {f : σ → τ}

theorem pure (a : α) : Erases f (Pure.pure a : Method ε σ α) (Pure.pure a) :=
  fun _ => rfl

theorem modify {g : σ → σ} {g' : τ → τ} (h : ∀ s, g' (f s) = f (g s)) :
    Erases f (modifyGet (fun s => (⟨⟩, g s)) : Method ε σ PUnit)
      (modifyGet fun s => (⟨⟩, g' s)) := by
  intro s
  show (Except.ok _, g' (f s)) = _
  rw [h]
  rfl

theorem bind {m : Method ε σ α} {m' : Method ε τ α} {k : α → Method ε σ β}
    {k' : α → Method ε τ β} (hm : Erases f m m') (hk : ∀ a, Erases f (k a) (k' a)) :
    Erases f (m >>= k) (m' >>= k') := by
  intro s
  rw [run_bind, run_bind, hm s]
  rcases m.run s with ⟨result, s'⟩
  cases result with
  | ok a => exact hk a s'
  | error e => rfl

/-- The continuations may read what `f` keeps. -/
theorem bindGet {k : σ → Method ε σ β} {k' : τ → Method ε τ β}
    (hk : ∀ s, Erases f (k s) (k' (f s))) :
    Erases f ((MonadState.get : Method ε σ σ) >>= k) (MonadState.get >>= k') :=
  fun s => hk s s

theorem bindLift (x : Except ε α) {k : α → Method ε σ β} {k' : α → Method ε τ β}
    (hk : ∀ a, Erases f (k a) (k' a)) :
    Erases f ((liftM x : Method ε σ α) >>= k) ((liftM x : Method ε τ α) >>= k') := by
  intro s
  cases x with
  | ok a => exact hk a s
  | error e => rfl

/-- A value read from the part that `f` changes. -/
theorem bindLiftMap (x : Except ε α) (p : α → γ) {k : α → Method ε σ β} {k' : γ → Method ε τ β}
    (hk : ∀ a, Erases f (k a) (k' (p a))) :
    Erases f ((liftM x : Method ε σ α) >>= k) ((liftM (x.map p) : Method ε τ γ) >>= k') := by
  intro s
  cases x with
  | ok a => exact hk a s
  | error e => rfl

theorem ite {p : Prop} [Decidable p] {m n : Method ε σ α} {m' n' : Method ε τ α}
    (hm : Erases f m m') (hn : Erases f n n') :
    Erases f (if p then m else n) (if p then m' else n') := by
  split
  · exact hm
  · exact hn

theorem map (g : α → β) {m : Method ε σ α} {m' : Method ε τ α} (hm : Erases f m m') :
    Erases f (g <$> m) (g <$> m') := by
  intro s
  rw [run_map, run_map, hm s]

theorem forEach {body : β → Method ε σ Unit} {body' : β → Method ε τ Unit}
    (hbody : ∀ x, Erases f (body x) (body' x)) (xs : List β) :
    Erases f (forEach body xs) (forEach body' xs) := by
  induction xs with
  | nil => exact pure ()
  | cons x xs ih => exact bind (hbody x) fun _ => ih

end Erases

end Method

end Foundation
end Jstd
