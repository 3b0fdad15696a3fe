import Jstd.Foundation.Method

/-!
# Simulation — runs of a machine driven by operations

A container is a machine: an operation goes in, an observation comes out, and the state moves on.
This module packages the two inductions over a run that every container needs:

* `run_refines`: a step-wise simulation of one machine by another relates whole runs;
* `run_invariant`: what every step preserves holds after every run.
-/

namespace Jstd
namespace Foundation

variable {Op Out Spec S A : Type}

/-- Feed the operations in order; collect the observations. -/
def runOps (step : Op → S → Out × S) : List Op → S → List Out × S
  | [], s => ([], s)
  | op :: ops, s =>
      let first := step op s
      let rest := runOps step ops first.2
      (first.1 :: rest.1, rest.2)

@[simp] theorem runOps_nil (step : Op → S → Out × S) (s : S) :
    runOps step [] s = ([], s) := rfl

theorem runOps_cons (step : Op → S → Out × S) (op : Op) (ops : List Op) (s : S) :
    runOps step (op :: ops) s =
      ((step op s).1 :: (runOps step ops (step op s).2).1,
        (runOps step ops (step op s).2).2) := rfl

/-- A run in two parts. -/
theorem runOps_append (step : Op → S → Out × S) (ops ops' : List Op) :
    ∀ s, runOps step (ops ++ ops') s =
      ((runOps step ops s).1 ++ (runOps step ops' (runOps step ops s).2).1,
        (runOps step ops' (runOps step ops s).2).2) := by
  induction ops with
  | nil =>
      intro s
      rfl
  | cons op ops ih =>
      intro s
      rw [List.cons_append, runOps_cons, runOps_cons, ih]
      rfl

/-- Where the abstract state satisfies `G`, `spec` answers every operation as `step` does, on states
related by `R`, which it keeps. -/
def SimulatesOn (G : A → Prop) (R : S → A → Prop) (step : Op → S → Out × S)
    (spec : Op → A → Spec × A) (obs : Out → Spec) : Prop :=
  ∀ op s a, R s a → G a → G (spec op a).2 →
    obs (step op s).1 = (spec op a).1 ∧ R (step op s).2 (spec op a).2

/-- `spec` answers every operation as `step` does, on states related by `R`, which it keeps. -/
def Simulates (R : S → A → Prop) (step : Op → S → Out × S) (spec : Op → A → Spec × A)
    (obs : Out → Spec) : Prop :=
  SimulatesOn (fun _ => True) R step spec obs

/-- Every state a run passes through satisfies `G`. -/
def Throughout (G : A → Prop) (spec : Op → A → Spec × A) (ops : List Op) (a : A) : Prop :=
  ∀ k, G (runOps spec (ops.take k) a).2

theorem Throughout.nil {G : A → Prop} {spec : Op → A → Spec × A} {a : A} (h : G a) :
    Throughout G spec [] a := by
  intro k
  simpa using h

theorem Throughout.cons {G : A → Prop} {spec : Op → A → Spec × A} {op : Op} {ops : List Op}
    {a : A} (h : G a) (hrest : Throughout G spec ops (spec op a).2) :
    Throughout G spec (op :: ops) a := by
  intro k
  cases k with
  | zero => exact h
  | succ k => simpa [runOps_cons] using hrest k

theorem Throughout.tail {G : A → Prop} {spec : Op → A → Spec × A} {op : Op} {ops : List Op}
    {a : A} (h : Throughout G spec (op :: ops) a) : Throughout G spec ops (spec op a).2 := by
  intro k
  simpa [runOps_cons] using h (k + 1)

theorem Throughout.last {G : A → Prop} {spec : Op → A → Spec × A} {ops : List Op} {a : A}
    (h : Throughout G spec ops a) : G (runOps spec ops a).2 := by
  simpa using h ops.length

/-- A simulation of single steps is a simulation of the runs that stay where it is one. -/
theorem run_refines_on {G : A → Prop} {R : S → A → Prop} {step : Op → S → Out × S}
    {spec : Op → A → Spec × A} {obs : Out → Spec} (hsim : SimulatesOn G R step spec obs)
    (ops : List Op) :
    ∀ s a, R s a → Throughout G spec ops a →
      (runOps step ops s).1.map obs = (runOps spec ops a).1 ∧
        R (runOps step ops s).2 (runOps spec ops a).2 := by
  induction ops with
  | nil =>
      intro s a hR _
      exact ⟨rfl, hR⟩
  | cons op ops ih =>
      intro s a hR hG
      have hhere : G a := by simpa using hG 0
      have hthere : G (spec op a).2 := by simpa using hG.tail 0
      obtain ⟨hout, hnext⟩ := hsim op s a hR hhere hthere
      obtain ⟨houts, hfinal⟩ := ih _ _ hnext hG.tail
      refine ⟨?_, ?_⟩
      · simp [runOps_cons, hout, houts]
      · simpa [runOps_cons] using hfinal

/-- A simulation of single steps is a simulation of runs. -/
theorem run_refines {R : S → A → Prop} {step : Op → S → Out × S} {spec : Op → A → Spec × A}
    {obs : Out → Spec} (hsim : Simulates R step spec obs) (ops : List Op) (s : S) (a : A)
    (hR : R s a) :
    (runOps step ops s).1.map obs = (runOps spec ops a).1 ∧
      R (runOps step ops s).2 (runOps spec ops a).2 :=
  run_refines_on hsim ops s a hR fun _ => trivial

/-- What every step preserves holds at the end of every run. -/
theorem run_invariant {I : S → Prop} {step : Op → S → Out × S}
    (hstep : ∀ op s, I s → I (step op s).2) (ops : List Op) :
    ∀ s, I s → I (runOps step ops s).2 := by
  induction ops with
  | nil =>
      intro s hI
      exact hI
  | cons op ops ih =>
      intro s hI
      simpa [runOps_cons] using ih _ (hstep op s hI)

/-- A loop that returns is the run of the operations its body stands for. -/
theorem forEach_eq_runOps {ε σ β : Type} {body : β → Method ε σ Unit} {step : Op → σ → Out × σ}
    {op : β → Op} (h : ∀ x s, (step (op x) s).2 = ((body x).run s).2) (xs : List β) :
    ∀ {s s' : σ}, (Method.forEach body xs).run s = (.ok (), s') →
      s' = (runOps step (xs.map op) s).2 := by
  induction xs with
  | nil =>
      intro s s' hrun
      cases hrun
      rfl
  | cons x xs ih =>
      intro s s' hrun
      rw [List.map_cons, runOps_cons, h]
      rcases hbody : (body x).run s with ⟨result, s₁⟩
      cases result with
      | ok u =>
          rw [Method.forEach_cons_of_ok hbody] at hrun
          exact ih hrun
      | error e =>
          rw [Method.forEach, Method.run_bind_of_error hbody] at hrun
          cases hrun

end Foundation
end Jstd
