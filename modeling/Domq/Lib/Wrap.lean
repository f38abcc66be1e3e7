import Domq.Lib.Interleave

/-!
# Calls behind a boundary

A system whose calls are made for something else (a text that is decoded to the call) and answered
with something else (a text that is made of the result). The procedures and their actions are those
of the system inside.

* `Sys.wrap S f g`: `f o` is the call that is made for `o`, and `g o x` the answer to `o` when that
  call has returned `x`. `asked` and `answered` are history.
* `Reach.unwrap`: what happens inside is a run of the system inside, so that everything that holds
  of its runs holds here.
* `Reach.answers`: every answer is `g` of the result of its call.
-/

namespace Domq.Lib

/-- The state inside, and what was asked and answered. -/
structure Wrapped (σ Op Res Ans : Type) where
  inner : σ
  asked : List (Tid × Op)
  answered : List (Tid × Op × Res × Ans)

namespace Sys

variable {A : Type} {R : A → Type} {σ χ Op Ask Res Ans : Type}
variable (S : Sys A R σ χ Op Res) (f : Ask → Op) (g : Ask → Res → Ans)

def wrap : Sys A R (Wrapped σ Ask Res Ans) χ Ask (Res × Ans) where
  prog o := S.prog (f o) >>= fun x => .ret (x, g o x)
  exec s t e a := (S.exec s.inner t e a).map fun rs => (rs.1, { s with inner := rs.2 })
  onCall s t o := { s with inner := S.onCall s.inner t (f o), asked := s.asked ++ [(t, o)] }
  onRet s t o x :=
    { s with
      inner := S.onRet s.inner t (f o) x.1
      answered := s.answered ++ [(t, o, x.1, x.2)] }

/-- The guard inside. -/
def wrapGuard (G : Guard A σ χ Op) : Guard A (Wrapped σ Ask Res Ans) χ Ask where
  call s t o := G.call s.inner t (f o)
  act s t e a := G.act s.inner t e a

/-- The threads are in the same calls, at the same place. -/
def SameRun : Option (Ask × Prog A R (Res × Ans)) → Option (Op × Prog A R Res) → Prop
  | none, none => True
  | some (o, p'), some (op, p) => op = f o ∧ p' = p >>= fun x => .ret (x, g o x)
  | _, _ => False

variable {S f g} {G : Guard A σ χ Op}
variable {c₀ c : Cfg A R (Wrapped σ Ask Res Ans) Ask (Res × Ans)}

theorem sameRun_update {run' : Tid → Option (Ask × Prog A R (Res × Ans))}
    {run : Tid → Option (Op × Prog A R Res)} (h : ∀ t, SameRun f g (run' t) (run t)) (t : Tid)
    {r' : Option (Ask × Prog A R (Res × Ans))} {r : Option (Op × Prog A R Res)}
    (hr : SameRun f g r' r) (t' : Tid) :
    SameRun f g (Function.update run' t r' t') (Function.update run t r t') := by
  by_cases ht : t' = t
  · subst ht
    simpa using hr
  · simp only [Function.update_of_ne ht]
    exact h t'

theorem SameRun.none_iff {r' : Option (Ask × Prog A R (Res × Ans))}
    {r : Option (Op × Prog A R Res)} (h : SameRun f g r' r) : r' = none ↔ r = none := by
  cases r' <;> cases r <;> simp_all [SameRun]

theorem SameRun.some_eq {o : Ask} {p' : Prog A R (Res × Ans)} {r : Option (Op × Prog A R Res)}
    (h : SameRun f g (some (o, p')) r) :
    ∃ p, r = some (f o, p) ∧ p' = p >>= fun x => .ret (x, g o x) := by
  cases r with
  | none => exact h.elim
  | some r =>
    obtain ⟨op, p⟩ := r
    obtain ⟨rfl, hp⟩ := h
    exact ⟨p, rfl, hp⟩

/-- **What happens inside is a run of the system inside.** -/
theorem Reach.unwrap (h₀ : ∀ t, c₀.run t = none) (hc : (S.wrap f g).Reach (wrapGuard f G) c₀ c) :
    ∃ d, S.Reach G ⟨c₀.shared.inner, fun _ => none⟩ d ∧ d.shared = c.shared.inner ∧
      ∀ t, SameRun f g (c.run t) (d.run t) := by
  induction hc with
  | init => exact ⟨_, .init, rfl, fun t => by rw [h₀ t]; trivial⟩
  | call t o _ hidle hg ih =>
    obtain ⟨d, hd, hshared, hrun⟩ := ih
    have hidle' := (hrun t).none_iff.mp hidle
    refine ⟨_, .call t (f o) hd hidle' (by rw [hshared]; exact hg), by rw [hshared]; rfl, ?_⟩
    exact sameRun_update hrun t ⟨rfl, rfl⟩
  | act t e _ hrun' hg hex ih =>
    obtain ⟨d, hd, hshared, hrun⟩ := ih
    have hsame := hrun t
    rw [hrun'] at hsame
    obtain ⟨p, hp, hbind⟩ := hsame.some_eq
    obtain ⟨⟨r, s'⟩, hinner, heq⟩ := Option.map_eq_some_iff.mp hex
    cases heq
    cases p with
    | ret x => cases hbind
    | act a k =>
      cases hbind
      refine ⟨_, .act t e hd hp (by rw [hshared]; exact hg) (by rw [hshared]; exact hinner), rfl,
        ?_⟩
      exact sameRun_update hrun t ⟨rfl, rfl⟩
  | ret t _ hrun' ih =>
    obtain ⟨d, hd, hshared, hrun⟩ := ih
    have hsame := hrun t
    rw [hrun'] at hsame
    obtain ⟨p, hp, hbind⟩ := hsame.some_eq
    cases p with
    | act a k => cases hbind
    | ret x =>
      cases hbind
      refine ⟨_, .ret t hd hp, by rw [hshared]; rfl, ?_⟩
      exact sameRun_update hrun t trivial

/-- What a call that is about to return has as its answer. -/
theorem Reach.answer_eq (h₀ : ∀ t, c₀.run t = none) (hc : (S.wrap f g).Reach (wrapGuard f G) c₀ c)
    {t : Tid} {o : Ask} {x : Res × Ans} (hrun : c.run t = some (o, .ret x)) : x.2 = g o x.1 := by
  obtain ⟨d, -, -, hsame⟩ := hc.unwrap h₀
  have ht := hsame t
  rw [hrun] at ht
  obtain ⟨p, -, hbind⟩ := ht.some_eq
  cases p with
  | act a k => cases hbind
  | ret y =>
    cases hbind
    rfl

/-- Every answer is that to the result of its call. -/
theorem Reach.answers (h₀ : ∀ t, c₀.run t = none) (hnone : c₀.shared.answered = [])
    (hc : (S.wrap f g).Reach (wrapGuard f G) c₀ c) :
    ∀ t o x y, (t, o, x, y) ∈ c.shared.answered → y = g o x := by
  induction hc with
  | init => simp [hnone]
  | call t o _ _ _ ih => exact ih
  | act t e _ _ _ hex ih =>
    obtain ⟨rs, -, heq⟩ := Option.map_eq_some_iff.mp hex
    cases heq
    exact ih
  | ret t hc' hrun ih =>
    intro t' o' x' y' hmem
    rcases List.mem_append.mp hmem with hmem | hmem
    · exact ih t' o' x' y' hmem
    · cases List.mem_singleton.mp hmem
      exact hc'.answer_eq h₀ hrun

end Sys

end Domq.Lib
