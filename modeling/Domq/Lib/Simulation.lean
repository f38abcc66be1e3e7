import Mathlib.Logic.Basic

/-!
# Simulation with results

A concrete machine answers every event with a result: `step s e = some (r, s')`, or `none` where
the code has no defined behaviour. Its specification is a relation between a state, an event, a
result and the next state.

* `run`: a list of events, with the results. `Admitted`: each of them is allowed when it comes.
* `Trace`: the results and states that the specification permits for a list of events.
* `Simulates.run`: when one step simulates, an admitted run is defined to its end and is a trace of
  the specification.
-/

namespace Domq.Lib.Simulation

variable {σ τ ε ρ : Type} (step : σ → ε → Option (ρ × σ)) (ok : σ → ε → Prop)
variable (spec : τ → ε → ρ → τ → Prop) (R : σ → τ → Prop)

def run : List ε → σ → Option (List ρ × σ)
  | [], s => some ([], s)
  | e :: es, s =>
    match step s e with
    | none => none
    | some (r, s') => (run es s').map fun x => (r :: x.1, x.2)

/-- Every event of the run is allowed in the state it finds. -/
def Admitted : List ε → σ → Prop
  | [], _ => True
  | e :: es, s => ok s e ∧ ∀ r s', step s e = some (r, s') → Admitted es s'

/-- What the specification permits. -/
inductive Trace : τ → List ε → List ρ → τ → Prop
  | nil (t : τ) : Trace t [] [] t
  | cons {t t' t'' : τ} {e : ε} {r : ρ} {es : List ε} {rs : List ρ} (h : spec t e r t')
      (hr : Trace t' es rs t'') : Trace t (e :: es) (r :: rs) t''

/-- An allowed step from related states is defined and permitted, and leads to related states. -/
def Simulates : Prop :=
  ∀ {s t e}, R s t → ok s e → ∃ r s' t', step s e = some (r, s') ∧ spec t e r t' ∧ R s' t'

variable {step ok spec R}

/-- **A whole run.** -/
theorem Simulates.run (h : Simulates step ok spec R) {es : List ε} {s : σ} {t : τ} (hR : R s t)
    (hes : Admitted step ok es s) :
    ∃ rs s' t', Simulation.run step es s = some (rs, s') ∧ Trace spec t es rs t' ∧ R s' t' := by
  induction es generalizing s t with
  | nil => exact ⟨[], s, t, rfl, .nil t, hR⟩
  | cons e es ih =>
    obtain ⟨hok, hrest⟩ := hes
    obtain ⟨r, s₁, t₁, hs, hspec, hR₁⟩ := h hR hok
    obtain ⟨rs, s', t', hrun, htrace, hR'⟩ := ih hR₁ (hrest r s₁ hs)
    refine ⟨r :: rs, s', t', ?_, .cons hspec htrace, hR'⟩
    simp only [Simulation.run, hs, hrun, Option.map_some]

end Domq.Lib.Simulation
