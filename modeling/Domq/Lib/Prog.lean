import Mathlib.Logic.Basic

/-!
# Programs over atomic actions

A procedure that runs against shared state is a tree: it stops with a result, or performs one
atomic action and continues with the action's answer. The tree says what the procedure does
whatever the answers are; who answers (a server, an adversary, a script of replies, other
threads in between) is a parameter.

* `Prog A R α`: procedures whose actions are `A` and where action `a` is answered by an `R a`.
* `eval f p s`: the run of `p` alone, its actions answered by the function `f` (`eval_bind`).
* `Meets C Q p g`: `p` keeps the contract `C` from the ghost state `g` on, and ends with `Q`. A
  contract says what an action has to guarantee (`gua`) and how the ghost state follows the
  answers (`step`).

The rules are `meets_bind`, `Meets.mono` and, for a procedure that runs alone, `Meets.eval`.
-/

namespace Domq.Lib

/-- A procedure with actions `A`, action `a` being answered in `R a`. -/
inductive Prog (A : Type) (R : A → Type) (α : Type) : Type
  | ret (x : α)
  | act (a : A) (k : R a → Prog A R α)

namespace Prog

variable {A : Type} {R : A → Type} {α β σ γ : Type}

/-- Sequencing. -/
protected def bind : Prog A R α → (α → Prog A R β) → Prog A R β
  | .ret x, f => f x
  | .act a k, f => .act a fun r => (k r).bind f

instance : Monad (Prog A R) where
  pure := .ret
  bind := Prog.bind

/-- One action, returning its answer. -/
def perform (a : A) : Prog A R (R a) := .act a .ret

@[simp] theorem pure_eq (x : α) : (pure x : Prog A R α) = .ret x := rfl

@[simp] theorem ret_bind (x : α) (f : α → Prog A R β) : (Prog.ret x >>= f) = f x := rfl

@[simp] theorem act_bind (a : A) (k : R a → Prog A R α) (f : α → Prog A R β) :
    (Prog.act a k >>= f) = .act a fun r => k r >>= f := rfl

@[simp] theorem perform_bind (a : A) (f : R a → Prog A R β) :
    (perform a >>= f) = .act a f := rfl

/-! ## Running alone -/

/-- The run of `p` when each action is answered by the function `f`; `none` when an action has
no answer. -/
def eval (f : σ → (a : A) → Option (R a × σ)) : Prog A R α → σ → Option (α × σ)
  | .ret x, s => some (x, s)
  | .act a k, s =>
    match f s a with
    | none => none
    | some (r, s₁) => (k r).eval f s₁

@[simp] theorem eval_ret (f : σ → (a : A) → Option (R a × σ)) (x : α) (s : σ) :
    (Prog.ret x : Prog A R α).eval f s = some (x, s) := rfl

@[simp] theorem eval_act (f : σ → (a : A) → Option (R a × σ)) (a : A) (k : R a → Prog A R α)
    (s : σ) : (Prog.act a k).eval f s = (f s a).bind fun rs => (k rs.1).eval f rs.2 := by
  rw [eval]
  cases f s a <;> rfl

/-- The first of two procedures, and then the second. -/
theorem eval_bind (f : σ → (a : A) → Option (R a × σ)) (p : Prog A R α) (k : α → Prog A R β)
    (s : σ) : (p >>= k).eval f s = (p.eval f s).bind fun xs => (k xs.1).eval f xs.2 := by
  induction p generalizing s with
  | ret x => rfl
  | act a g ih =>
    rw [act_bind, eval_act, eval_act, Option.bind_assoc]
    congr 1
    funext rs
    exact ih rs.1 rs.2

/-! ## Contracts -/

/-- What a procedure owes at each action, and how a ghost state follows the answers. -/
structure Contract (A : Type) (R : A → Type) (γ : Type) where
  /-- What performing `a` in ghost state `g` has to guarantee. -/
  gua : γ → A → Prop
  /-- The answers `a` may get in `g`, with the ghost state after each. -/
  step : γ → (a : A) → R a → γ → Prop

/-- `p` keeps `C` from `g` on and ends with `Q`. -/
def Meets (C : Contract A R γ) (Q : γ → α → Prop) : Prog A R α → γ → Prop
  | .ret x, g => Q g x
  | .act a k, g => C.gua g a ∧ ∀ r g', C.step g a r g' → (k r).Meets C Q g'

variable {C : Contract A R γ}

@[simp] theorem meets_ret {Q : γ → α → Prop} {x : α} {g : γ} :
    (Prog.ret x : Prog A R α).Meets C Q g ↔ Q g x := Iff.rfl

@[simp] theorem meets_act {Q : γ → α → Prop} {a : A} {k : R a → Prog A R α} {g : γ} :
    (Prog.act a k).Meets C Q g ↔
      C.gua g a ∧ ∀ r g', C.step g a r g' → (k r).Meets C Q g' := Iff.rfl

theorem Meets.mono {Q Q' : γ → α → Prop} (hQ : ∀ g x, Q g x → Q' g x) {p : Prog A R α} {g : γ}
    (hp : p.Meets C Q g) : p.Meets C Q' g := by
  induction p generalizing g with
  | ret x => exact hQ g x hp
  | act a k ih => exact ⟨hp.1, fun r g' hs => ih r (hp.2 r g' hs)⟩

/-- A procedure followed by another: the first has to end where the second can start. -/
theorem meets_bind {Q : γ → β → Prop} {p : Prog A R α} {f : α → Prog A R β} {g : γ} :
    (p >>= f).Meets C Q g ↔ p.Meets C (fun g x => (f x).Meets C Q g) g := by
  induction p generalizing g with
  | ret x => exact Iff.rfl
  | act a k ih =>
    rw [act_bind]
    constructor
    · exact fun hp => ⟨hp.1, fun r g' hs => (ih r).mp (hp.2 r g' hs)⟩
    · exact fun hp => ⟨hp.1, fun r g' hs => (ih r).mpr (hp.2 r g' hs)⟩

/-- A procedure run alone ends as its contract says, if the ghost state can follow every answer. -/
theorem Meets.eval {f : σ → (a : A) → Option (R a × σ)} {K : γ → σ → Prop}
    (hstep : ∀ {g s a r s'}, K g s → C.gua g a → f s a = some (r, s') →
      ∃ g', C.step g a r g' ∧ K g' s')
    {Q : γ → α → Prop} {p : Prog A R α} {g : γ} {s s' : σ} {x : α} (hp : p.Meets C Q g)
    (hg : K g s) (he : p.eval f s = some (x, s')) : ∃ g', Q g' x ∧ K g' s' := by
  induction p generalizing g s with
  | ret y =>
    cases he
    exact ⟨g, hp, hg⟩
  | act a k ih =>
    rw [eval_act] at he
    obtain ⟨⟨r, s₁⟩, hf, he⟩ := Option.bind_eq_some_iff.mp he
    obtain ⟨g₁, hs, hg₁⟩ := hstep hg hp.1 hf
    exact ih r (hp.2 r g₁ hs) hg₁ he

end Prog

end Domq.Lib
