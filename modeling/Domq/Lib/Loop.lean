import Mathlib.Data.Option.Basic

/-!
# Counting loops that can fail

`loop f n b` is `for (j = 0; j < n; j++)` with the body `f j`, from the state `b`; it stops with
`none` at the first body that fails.

`loop_inv` is the rule: an invariant indexed by the counter, with definedness.
-/

namespace Domq.Lib

variable {β : Type} {f : Nat → β → Option β} {n : Nat} {b : β}

def loop (f : Nat → β → Option β) : Nat → β → Option β
  | 0, b => some b
  | n + 1, b => (loop f n b).bind (f n)

/-- **The invariant rule**: the loop runs to its end. -/
theorem loop_inv {P : Nat → β → Prop} (h₀ : P 0 b)
    (hstep : ∀ j < n, ∀ s, P j s → ∃ s', f j s = some s' ∧ P (j + 1) s') :
    ∃ s, loop f n b = some s ∧ P n s := by
  induction n with
  | zero => exact ⟨b, rfl, h₀⟩
  | succ n ih =>
    obtain ⟨s, hs, hP⟩ := ih fun j hj => hstep j (Nat.lt_succ_of_lt hj)
    obtain ⟨s', hs', hP'⟩ := hstep n (Nat.lt_succ_self n) s hP
    exact ⟨s', by rw [loop, hs, Option.bind_some, hs'], hP'⟩

end Domq.Lib
