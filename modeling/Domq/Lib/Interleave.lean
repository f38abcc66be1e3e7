import Domq.Lib.Prog
import Mathlib.Logic.Function.Basic

/-!
# Interleaved procedures

Any number of threads run procedures (`Prog`) over one shared state; each action is atomic and the
actions of the threads interleave in any order. A thread is idle, or is in a call: it has what is
left of the call's procedure.

* `Sys`: the procedures, what an action does to the shared state (`exec`, with the outside world's
  choice `χ` for this action: a clock value, a random number), and the history kept at a call and at
  a return.
* `Sys.Reach`: the configurations reached from `c₀` by steps that satisfy a `Guard`.
* `Reach.of_steps`: what every step keeps holds in every configuration reached.
* `Sys.moves`: a schedule, executed; what it computes is reached (`reach_of_moves`).

**The rule** (`Sys.Rule`, `Reach.inv`). Let every thread have a ghost state, read off the shared
state. If every procedure meets a contract from its call on, every action that keeps its part of
the contract preserves the invariant and moves the acting thread's ghost state as the contract says
it may, and nobody moves another thread's ghost state, then the invariant holds in every
configuration reached, and what is left of every call meets the contract.
-/

namespace Domq.Lib

/-- Thread identifiers. -/
abbrev Tid := Nat

/-- A system of interleaved procedures. -/
structure Sys (A : Type) (R : A → Type) (σ χ Op Res : Type) where
  /-- The procedure of a call. -/
  prog : Op → Prog A R Res
  /-- One atomic action of a thread; `none` when it cannot happen now. -/
  exec : σ → Tid → χ → (a : A) → Option (R a × σ)
  /-- History at a call. -/
  onCall : σ → Tid → Op → σ
  /-- History at a return. -/
  onRet : σ → Tid → Op → Res → σ

/-- A configuration: the shared state, and for each thread the call it is in. -/
structure Cfg (A : Type) (R : A → Type) (σ Op Res : Type) where
  shared : σ
  run : Tid → Option (Op × Prog A R Res)

/-- Which calls and which actions a run may take. -/
structure Guard (A σ χ Op : Type) where
  call : σ → Tid → Op → Prop
  act : σ → Tid → χ → A → Prop

namespace Sys

variable {A : Type} {R : A → Type} {σ χ Op Res γ : Type}
variable (S : Sys A R σ χ Op Res) (G : Guard A σ χ Op)

/-- The configurations a run can reach from `c₀` by steps that satisfy `G`. -/
inductive Reach (c₀ : Cfg A R σ Op Res) : Cfg A R σ Op Res → Prop
  | init : Reach c₀ c₀
  | call {c : Cfg A R σ Op Res} (t : Tid) (op : Op) (hc : Reach c₀ c) (hidle : c.run t = none)
      (hg : G.call c.shared t op) :
      Reach c₀ ⟨S.onCall c.shared t op, Function.update c.run t (some (op, S.prog op))⟩
  | act {c : Cfg A R σ Op Res} (t : Tid) (e : χ) {op : Op} {a : A} {k : R a → Prog A R Res}
      {r : R a} {s' : σ} (hc : Reach c₀ c) (hrun : c.run t = some (op, .act a k))
      (hg : G.act c.shared t e a) (hex : S.exec c.shared t e a = some (r, s')) :
      Reach c₀ ⟨s', Function.update c.run t (some (op, k r))⟩
  | ret {c : Cfg A R σ Op Res} (t : Tid) {op : Op} {x : Res} (hc : Reach c₀ c)
      (hrun : c.run t = some (op, .ret x)) :
      Reach c₀ ⟨S.onRet c.shared t op x, Function.update c.run t none⟩

/-! ## Schedules -/

/-- One step of a schedule: a thread starts a call, or takes the next step of the one it is in. -/
inductive Move (χ Op : Type) : Type
  | call (t : Tid) (op : Op)
  | step (t : Tid) (e : χ)

/-- The configuration after one move, `none` when the move is not possible. -/
def move (c : Cfg A R σ Op Res) : Move χ Op → Option (Cfg A R σ Op Res)
  | .call t op =>
    match c.run t with
    | none => some ⟨S.onCall c.shared t op, Function.update c.run t (some (op, S.prog op))⟩
    | some _ => none
  | .step t e =>
    match c.run t with
    | none => none
    | some (op, .ret x) => some ⟨S.onRet c.shared t op x, Function.update c.run t none⟩
    | some (op, .act a k) =>
      match S.exec c.shared t e a with
      | none => none
      | some (r, s') => some ⟨s', Function.update c.run t (some (op, k r))⟩

/-- Every call and every action is allowed. -/
def free : Guard A σ χ Op := ⟨fun _ _ _ => True, fun _ _ _ _ => True⟩

/-- What the guard says of a move. -/
def Allows (c : Cfg A R σ Op Res) : Move χ Op → Prop
  | .call t op => G.call c.shared t op
  | .step t e =>
    match c.run t with
    | some (_, .act a _) => G.act c.shared t e a
    | _ => True

/-- The configuration after a schedule all of whose moves pass the test `ok`. -/
def moves (ok : Cfg A R σ Op Res → Move χ Op → Bool) (c : Cfg A R σ Op Res) :
    List (Move χ Op) → Option (Cfg A R σ Op Res)
  | [] => some c
  | m :: ms =>
    if ok c m then
      match S.move c m with
      | none => none
      | some c' => moves ok c' ms
    else none

variable {S G}

theorem reach_of_move {c₀ c c' : Cfg A R σ Op Res} {m : Move χ Op} (hc : S.Reach G c₀ c)
    (hok : Allows G c m) (hm : S.move c m = some c') : S.Reach G c₀ c' := by
  cases m with
  | call t op =>
    simp only [move] at hm
    split at hm
    · rename_i hidle
      cases hm
      exact .call t op hc hidle hok
    · cases hm
  | step t e =>
    simp only [move] at hm
    split at hm
    · cases hm
    · rename_i hrun
      cases hm
      exact .ret t hc hrun
    · rename_i hrun
      simp only [Allows, hrun] at hok
      split at hm
      · cases hm
      · rename_i hex
        cases hm
        exact .act t e hc hrun hok hex

/-- What a schedule computes is reached, when its moves are allowed in the configurations it passes
through, of which `J` may be known. -/
theorem reach_of_moves {ok : Cfg A R σ Op Res → Move χ Op → Bool} {J : Cfg A R σ Op Res → Prop}
    (hJ : ∀ c m c', J c → ok c m → S.move c m = some c' → J c')
    (hok : ∀ c m, J c → ok c m → Allows G c m) {c₀ c c' : Cfg A R σ Op Res} (hc : S.Reach G c₀ c)
    (hc' : J c) (ms : List (Move χ Op)) (h : S.moves ok c ms = some c') : S.Reach G c₀ c' := by
  induction ms generalizing c with
  | nil =>
    cases h
    exact hc
  | cons m ms ih =>
    simp only [moves] at h
    split at h
    · rename_i hm
      split at h
      · cases h
      · rename_i c₁ hmove
        exact ih (reach_of_move hc (hok c m hc' hm) hmove) (hJ c m c₁ hc' hm hmove) h
    · cases h

/-- The configuration a schedule of allowed moves leads to. -/
theorem reach_get {ok : Cfg A R σ Op Res → Move χ Op → Bool}
    (hok : ∀ c m, ok c m → Allows G c m) (S : Sys A R σ χ Op Res) (c₀ : Cfg A R σ Op Res)
    (ms : List (Move χ Op)) (h : (S.moves ok c₀ ms).isSome) :
    S.Reach G c₀ ((S.moves ok c₀ ms).get h) :=
  reach_of_moves (fun _ _ _ _ _ _ => trivial) (fun c m _ => hok c m) .init trivial ms
    (Option.some_get h).symm

/-- A step is allowed when its action is. -/
theorem allows_step {c : Cfg A R σ Op Res} {t : Tid} {e : χ}
    (h : ∀ op a k, c.run t = some (op, .act a k) → G.act c.shared t e a) :
    Allows G c (.step t e) := by
  rcases hrun : c.run t with _ | ⟨op, _ | ⟨a, k⟩⟩
  · simp [Allows, hrun]
  · simp [Allows, hrun]
  · simp only [Allows, hrun]
    exact h op a k hrun

/-- Any schedule is one of `free`. -/
theorem reach_free (S : Sys A R σ χ Op Res) (c₀ : Cfg A R σ Op Res) {c : Cfg A R σ Op Res}
    (ms : List (Move χ Op)) (h : S.moves (fun _ _ => true) c₀ ms = some c) :
    S.Reach free c₀ c := by
  refine reach_of_moves (fun _ _ _ _ _ _ => trivial) (fun c m _ _ => ?_) .init trivial ms h
  cases m with
  | call t op => exact True.intro
  | step t e => exact allows_step fun _ _ _ _ => True.intro

/-! ## Invariants of the steps -/

/-- What every step keeps, whatever the procedures are, holds in every configuration reached. -/
theorem Reach.of_steps {I : σ → Prop} {c₀ c : Cfg A R σ Op Res} (h₀ : I c₀.shared)
    (hcall : ∀ {s t op}, I s → G.call s t op → I (S.onCall s t op))
    (hact : ∀ {s t e} {a : A} {r : R a} {s'}, I s → G.act s t e a →
      S.exec s t e a = some (r, s') → I s')
    (hret : ∀ {s t op x}, I s → I (S.onRet s t op x)) (hc : S.Reach G c₀ c) : I c.shared := by
  induction hc with
  | init => exact h₀
  | call t op _ _ hg ih => exact hcall ih hg
  | act t e _ _ hg hex ih => exact hact ih hg hex
  | ret t _ _ ih => exact hret ih

/-! ## The invariant rule -/

/-- The premises of the rule: `I` is the invariant, `ghost s t` thread `t`'s ghost state, `Idle`
what it is between calls, `Q op` what the call `op` has ended with when it returns. -/
structure Rule (S : Sys A R σ χ Op Res) (G : Guard A σ χ Op) (C : Prog.Contract A R γ)
    (ghost : σ → Tid → γ) (I : σ → Prop) (Idle : γ → Prop) (Q : Op → γ → Res → Prop) :
    Prop where
  /-- A call starts with its contract met. -/
  call : ∀ {s t op}, I s → Idle (ghost s t) → G.call s t op →
    I (S.onCall s t op) ∧ (S.prog op).Meets C (Q op) (ghost (S.onCall s t op) t) ∧
      ∀ t', t' ≠ t → ghost (S.onCall s t op) t' = ghost s t'
  /-- An action that keeps the contract keeps the invariant. -/
  act : ∀ {s t e} {a : A} {r : R a} {s'}, I s → G.act s t e a → C.gua (ghost s t) a →
    S.exec s t e a = some (r, s') →
    I s' ∧ C.step (ghost s t) a r (ghost s' t) ∧ ∀ t', t' ≠ t → ghost s' t' = ghost s t'
  /-- A return leaves the thread idle. -/
  ret : ∀ {s t op x}, I s → Q op (ghost s t) x →
    I (S.onRet s t op x) ∧ Idle (ghost (S.onRet s t op x) t) ∧
      ∀ t', t' ≠ t → ghost (S.onRet s t op x) t' = ghost s t'

/-- What the rule keeps of one thread. -/
def ThreadOk (C : Prog.Contract A R γ) (Idle : γ → Prop) (Q : Op → γ → Res → Prop) (g : γ) :
    Option (Op × Prog A R Res) → Prop
  | none => Idle g
  | some (op, p) => p.Meets C (Q op) g

/-- **The invariant rule.** -/
theorem Reach.inv {C : Prog.Contract A R γ} {ghost : σ → Tid → γ} {I : σ → Prop}
    {Idle : γ → Prop} {Q : Op → γ → Res → Prop} (hR : Rule S G C ghost I Idle Q)
    {c₀ c : Cfg A R σ Op Res} (hI : I c₀.shared)
    (hT : ∀ t, ThreadOk C Idle Q (ghost c₀.shared t) (c₀.run t)) (hc : S.Reach G c₀ c) :
    I c.shared ∧ ∀ t, ThreadOk C Idle Q (ghost c.shared t) (c.run t) := by
  induction hc with
  | init => exact ⟨hI, hT⟩
  | call t op _ hidle hg ih =>
    obtain ⟨ihI, ihT⟩ := ih
    have hid := ihT t
    rw [hidle] at hid
    obtain ⟨h₁, h₂, h₃⟩ := hR.call ihI hid hg
    refine ⟨h₁, fun t' => ?_⟩
    by_cases ht : t' = t
    · subst ht
      simpa [ThreadOk] using h₂
    · simp only [Function.update_of_ne ht, h₃ t' ht]
      exact ihT t'
  | act t e _ hrun hg hex ih =>
    obtain ⟨ihI, ihT⟩ := ih
    have hp := ihT t
    rw [hrun] at hp
    obtain ⟨h₁, h₂, h₃⟩ := hR.act ihI hg hp.1 hex
    refine ⟨h₁, fun t' => ?_⟩
    by_cases ht : t' = t
    · subst ht
      simpa [ThreadOk] using hp.2 _ _ h₂
    · simp only [Function.update_of_ne ht, h₃ t' ht]
      exact ihT t'
  | ret t _ hrun ih =>
    obtain ⟨ihI, ihT⟩ := ih
    have hp := ihT t
    rw [hrun] at hp
    obtain ⟨h₁, h₂, h₃⟩ := hR.ret ihI hp
    refine ⟨h₁, fun t' => ?_⟩
    by_cases ht : t' = t
    · subst ht
      simpa [ThreadOk] using h₂
    · simp only [Function.update_of_ne ht, h₃ t' ht]
      exact ihT t'

end Sys

end Domq.Lib
