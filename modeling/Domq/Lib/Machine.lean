import Mathlib.Logic.Basic

/-!
# Machines

A machine is a partial step function on states and events: an event that cannot happen in a state
has no step there. A run is a sequence of events, and a `guard` may restrict which event happens
when.

* `Reach step guard s₀`: the states that runs from `s₀` lead to whose steps all satisfy the guard.
* `Reach.inv`: what holds at the start and is kept by every step holds in every state reached.
* `run`, `reach_of_run`: a list of events, executed while a test passes, and that it is a run.
-/

namespace Domq.Lib.Machine

variable {σ ε : Type} (step : σ → ε → Option σ) (guard : σ → ε → Prop)

/-- The states reached from `s₀`. -/
inductive Reach (s₀ : σ) : σ → Prop
  | init : Reach s₀ s₀
  | step {s s' : σ} (e : ε) (h : Reach s₀ s) (hg : guard s e) (hs : step s e = some s') :
      Reach s₀ s'

/-- No restriction. -/
def free : σ → ε → Prop := fun _ _ => True

/-- The state after a list of events that pass a test. -/
def run (ok : σ → ε → Bool) : List ε → σ → Option σ
  | [], s => some s
  | e :: es, s => if ok s e then (step s e).bind (run ok es) else none

variable {step guard} {s₀ : σ}

/-- **The invariant rule.** -/
theorem Reach.inv {I : σ → Prop} (h₀ : I s₀)
    (hstep : ∀ {s e s'}, I s → guard s e → step s e = some s' → I s') {s : σ}
    (h : Reach step guard s₀ s) : I s := by
  induction h with
  | init => exact h₀
  | step e _ hg hs ih => exact hstep ih hg hs

theorem Reach.run {ok : σ → ε → Bool} (hok : ∀ s e, ok s e = true → guard s e) {s s' : σ}
    (h : Reach step guard s₀ s) (es : List ε) (hr : Machine.run step ok es s = some s') :
    Reach step guard s₀ s' := by
  induction es generalizing s with
  | nil =>
    cases hr
    exact h
  | cons e es ih =>
    rw [Machine.run] at hr
    split at hr
    · rename_i he
      obtain ⟨s₁, hs, hr'⟩ := Option.bind_eq_some_iff.mp hr
      exact ih (.step e h (hok s e he) hs) hr'
    · cases hr

/-- What a list of events computes is reached. -/
theorem reach_of_run (es : List ε) {s : σ}
    (hr : Machine.run step (fun _ _ => true) es s₀ = some s) :
    Reach step free s₀ s := Reach.init.run (fun _ _ _ => trivial) es hr

end Domq.Lib.Machine
