import Domq.Lib.Interleave

/-!
# Systems that look sequential

What the calls of a system do is said by a sequential object, `Spec`: what it may answer to a call,
and the state it is in then. A history of a system with threads is linearizable when each call can
be given one point, between the call and its return, at which it has its whole effect: the calls in
the order of their points are a run of the object, with the same answers. As the point of a call is
in its interval, a call that begins after another has returned comes after it in this order.

* `Sys.History`: the runs of a system, with what is seen of them from outside.
* `Linearizable`: the definition, by a history with its points (`Mark`).
* `Sys.History.linearizes`: the rule. A relation between the configurations of the system and the
  states of the object, in which every step of a thread is at most one point of its call.
-/

namespace Domq.Lib

/-! ## Histories -/

/-- What is seen from outside. -/
inductive Seen (Op Res : Type)
  | call (t : Tid) (op : Op)
  | ret (t : Tid) (op : Op) (x : Res)

def Seen.answer? {Op Res : Type} : Seen Op Res → Option Res
  | call _ _ => none
  | ret _ _ x => some x

namespace Sys

variable {A : Type} {R : A → Type} {σ χ Op Res : Type}
variable (S : Sys A R σ χ Op Res) (G : Guard A σ χ Op)

/-- The runs from `c₀` by steps that satisfy `G`, with what is seen of them. -/
inductive History (c₀ : Cfg A R σ Op Res) : List (Seen Op Res) → Cfg A R σ Op Res → Prop
  | init : History c₀ [] c₀
  | call {h : List (Seen Op Res)} {c : Cfg A R σ Op Res} (t : Tid) (op : Op)
      (hc : History c₀ h c) (hidle : c.run t = none) (hg : G.call c.shared t op) :
      History c₀ (h ++ [.call t op])
        ⟨S.onCall c.shared t op, Function.update c.run t (some (op, S.prog op))⟩
  | act {h : List (Seen Op Res)} {c : Cfg A R σ Op Res} (t : Tid) (e : χ) {op : Op} {a : A}
      {k : R a → Prog A R Res} {r : R a} {s' : σ} (hc : History c₀ h c)
      (hrun : c.run t = some (op, .act a k)) (hg : G.act c.shared t e a)
      (hex : S.exec c.shared t e a = some (r, s')) :
      History c₀ h ⟨s', Function.update c.run t (some (op, k r))⟩
  | ret {h : List (Seen Op Res)} {c : Cfg A R σ Op Res} (t : Tid) {op : Op} {x : Res}
      (hc : History c₀ h c) (hrun : c.run t = some (op, .ret x)) :
      History c₀ (h ++ [.ret t op x]) ⟨S.onRet c.shared t op x, Function.update c.run t none⟩

variable {S G} {c₀ c : Cfg A R σ Op Res} {h : List (Seen Op Res)}

theorem History.reach (hc : S.History G c₀ h c) : S.Reach G c₀ c := by
  induction hc with
  | init => exact .init
  | call t op _ hidle hg ih => exact .call t op ih hidle hg
  | act t e _ hrun hg hex ih => exact .act t e ih hrun hg hex
  | ret t _ hrun ih => exact .ret t ih hrun

/-- What is seen of a move. -/
def seen (c : Cfg A R σ Op Res) : Move χ Op → List (Seen Op Res)
  | .call t op => [.call t op]
  | .step t _ =>
    match c.run t with
    | some (op, .ret x) => [.ret t op x]
    | _ => []

theorem History.move {c' : Cfg A R σ Op Res} {m : Move χ Op} (hc : S.History G c₀ h c)
    (hok : Allows G c m) (hm : S.move c m = some c') : S.History G c₀ (h ++ seen c m) c' := by
  cases m with
  | call t op =>
    simp only [Sys.move] at hm
    split at hm
    · rename_i hidle
      cases hm
      exact .call t op hc hidle hok
    · cases hm
  | step t e =>
    simp only [Sys.move] at hm
    split at hm
    · cases hm
    · rename_i hrun
      cases hm
      simp only [seen, hrun]
      exact .ret t hc hrun
    · rename_i hrun
      simp only [Allows, hrun] at hok
      split at hm
      · cases hm
      · rename_i hex
        cases hm
        simp only [seen, hrun, List.append_nil]
        exact .act t e hc hrun hok hex

variable (S) in
/-- What is seen of a schedule, and the configuration after it. -/
def watch (ok : Cfg A R σ Op Res → Move χ Op → Bool) (c : Cfg A R σ Op Res) :
    List (Move χ Op) → Option (List (Seen Op Res) × Cfg A R σ Op Res)
  | [] => some ([], c)
  | m :: ms =>
    if ok c m then
      match S.move c m with
      | none => none
      | some c' => (watch ok c' ms).map fun hd => (seen c m ++ hd.1, hd.2)
    else none

theorem History.watch {ok : Cfg A R σ Op Res → Move χ Op → Bool}
    (hok : ∀ c m, ok c m → Allows G c m) (hc : S.History G c₀ h c) (ms : List (Move χ Op))
    {h' : List (Seen Op Res)} {c' : Cfg A R σ Op Res} (hw : S.watch ok c ms = some (h', c')) :
    S.History G c₀ (h ++ h') c' := by
  induction ms generalizing h c h' with
  | nil =>
    cases hw
    rw [List.append_nil]
    exact hc
  | cons m ms ih =>
    simp only [Sys.watch] at hw
    split at hw
    · rename_i hm
      split at hw
      · cases hw
      · rename_i c₁ hmove
        obtain ⟨⟨h₁, d⟩, hrest, heq⟩ := Option.map_eq_some_iff.mp hw
        cases heq
        rw [← List.append_assoc]
        exact ih (hc.move (hok c m hm) hmove) hrest
    · cases hw

/-- What is seen of a schedule that is possible. -/
theorem history_get {ok : Cfg A R σ Op Res → Move χ Op → Bool}
    (hok : ∀ c m, ok c m → Allows G c m) (S : Sys A R σ χ Op Res) (c₀ : Cfg A R σ Op Res)
    (ms : List (Move χ Op)) (hw : (S.watch ok c₀ ms).isSome) :
    S.History G c₀ ((S.watch ok c₀ ms).get hw).1 ((S.watch ok c₀ ms).get hw).2 :=
  History.watch hok .init ms (Option.some_get hw).symm

end Sys

/-! ## Linearizability -/

/-- A sequential object: what it may answer to a call in a state, and the state it is in then. -/
abbrev Spec (σ Op Res : Type) := σ → Op → Res → σ → Prop

/-- What is seen, or the point of a call. -/
inductive Mark (Op Res : Type)
  | seen (e : Seen Op Res)
  | point (t : Tid) (op : Op) (x : Res)

namespace Mark

variable {Op Res : Type}

def thread : Mark Op Res → Tid
  | seen (.call t _) => t
  | seen (.ret t _ _) => t
  | point t _ _ => t

def seen? : Mark Op Res → Option (Seen Op Res)
  | seen e => some e
  | point _ _ _ => none

def point? : Mark Op Res → Option (Op × Res)
  | seen _ => none
  | point _ op x => some (op, x)

end Mark

/-- Where a thread is: in no call, before the point of its call, or behind it. -/
inductive Place (Op Res : Type)
  | idle
  | called (op : Op)
  | done (op : Op) (x : Res)

section

variable {τ Op Res : Type}

/-- A thread makes a call, the call has its effect, and it returns with the answer. -/
inductive Place.Next : Place Op Res → Mark Op Res → Place Op Res → Prop
  | call (t : Tid) (op : Op) : Next .idle (.seen (.call t op)) (.called op)
  | point (t : Tid) (op : Op) (x : Res) : Next (.called op) (.point t op x) (.done op x)
  | ret (t : Tid) (op : Op) (x : Res) : Next (.done op x) (.seen (.ret t op x)) .idle

/-- The marks of a thread come in this order. -/
inductive InTurn (t : Tid) : List (Mark Op Res) → Place Op Res → Prop
  | nil : InTurn t [] .idle
  | own {l : List (Mark Op Res)} {p p' : Place Op Res} {m : Mark Op Res} (h : InTurn t l p)
      (hm : m.thread = t) (hn : p.Next m p') : InTurn t (l ++ [m]) p'
  | other {l : List (Mark Op Res)} {p : Place Op Res} {m : Mark Op Res} (h : InTurn t l p)
      (hm : m.thread ≠ t) : InTurn t (l ++ [m]) p

/-- Calls one after another, with the answers of the object. -/
inductive Legal (spec : Spec τ Op Res) (b₀ : τ) : List (Op × Res) → τ → Prop
  | nil : Legal spec b₀ [] b₀
  | concat {l : List (Op × Res)} {b b' : τ} {op : Op} {x : Res} (h : Legal spec b₀ l b)
      (hs : spec b op x b') : Legal spec b₀ (l ++ [(op, x)]) b'

/-- These marks are the history with a point for each call that has had its effect. -/
structure Linearizes (spec : Spec τ Op Res) (b₀ : τ) (h : List (Seen Op Res))
    (marks : List (Mark Op Res)) (b : τ) (place : Tid → Place Op Res) : Prop where
  seen : marks.filterMap Mark.seen? = h
  legal : Legal spec b₀ (marks.filterMap Mark.point?) b
  inTurn : ∀ t, InTurn t marks (place t)

/-- **The history looks like one of the object**, which is in state `b` then. -/
def Linearizable (spec : Spec τ Op Res) (b₀ : τ) (h : List (Seen Op Res)) (b : τ) : Prop :=
  ∃ marks place, Linearizes spec b₀ h marks b place

variable {spec : Spec τ Op Res} {b₀ b b' : τ} {h : List (Seen Op Res)}
variable {marks : List (Mark Op Res)} {place : Tid → Place Op Res} {t : Tid} {op : Op} {x : Res}

theorem linearizes_nil : Linearizes spec b₀ [] [] b₀ fun _ => .idle := ⟨rfl, .nil, fun _ => .nil⟩

theorem inTurn_concat (ht : ∀ t, InTurn t marks (place t)) {m : Mark Op Res} {p : Place Op Res}
    (hn : (place m.thread).Next m p) (t : Tid) :
    InTurn t (marks ++ [m]) (Function.update place m.thread p t) := by
  by_cases hm : m.thread = t
  · subst hm
    rw [Function.update_self]
    exact .own (ht _) rfl hn
  · rw [Function.update_of_ne (Ne.symm hm)]
    exact .other (ht t) hm

namespace Linearizes

theorem call (hl : Linearizes spec b₀ h marks b place) (hp : place t = .idle) (op : Op) :
    Linearizes spec b₀ (h ++ [.call t op]) (marks ++ [.seen (.call t op)]) b
      (Function.update place t (.called op)) where
  seen := by rw [List.filterMap_append, hl.seen]; rfl
  legal := by
    rw [List.filterMap_append]
    exact (List.append_nil (marks.filterMap Mark.point?)).symm ▸ hl.legal
  inTurn := inTurn_concat (m := .seen (.call t op)) hl.inTurn (hp ▸ .call t op)

theorem point (hl : Linearizes spec b₀ h marks b place) (hp : place t = .called op)
    (hs : spec b op x b') :
    Linearizes spec b₀ h (marks ++ [.point t op x]) b' (Function.update place t (.done op x)) where
  seen := by rw [List.filterMap_append, hl.seen]; exact List.append_nil h
  legal := by rw [List.filterMap_append]; exact .concat hl.legal hs
  inTurn := inTurn_concat (m := .point t op x) hl.inTurn (hp ▸ .point t op x)

theorem ret (hl : Linearizes spec b₀ h marks b place) (hp : place t = .done op x) :
    Linearizes spec b₀ (h ++ [.ret t op x]) (marks ++ [.seen (.ret t op x)]) b
      (Function.update place t .idle) where
  seen := by rw [List.filterMap_append, hl.seen]; rfl
  legal := by
    rw [List.filterMap_append]
    exact (List.append_nil (marks.filterMap Mark.point?)).symm ▸ hl.legal
  inTurn := inTurn_concat (m := .seen (.ret t op x)) hl.inTurn (hp ▸ .ret t op x)

end Linearizes

/-! ## The rule -/

/-- No point, or that of the call of `t`. -/
inductive AtMostPoint (spec : Spec τ Op Res) (t : Tid) (b : τ) (place : Tid → Place Op Res) :
    τ → (Tid → Place Op Res) → Prop
  | none : AtMostPoint spec t b place b place
  | one {b' : τ} {op : Op} {x : Res} (hp : place t = .called op) (hs : spec b op x b') :
      AtMostPoint spec t b place b' (Function.update place t (.done op x))

theorem AtMostPoint.linearizes {b' : τ} {place' : Tid → Place Op Res}
    (hp : AtMostPoint spec t b place b' place') (hl : Linearizes spec b₀ h marks b place) :
    ∃ marks', Linearizes spec b₀ h marks' b' place' := by
  cases hp with
  | none => exact ⟨marks, hl⟩
  | one hp hs => exact ⟨_, hl.point hp hs⟩

variable {A : Type} {R : A → Type} {σ χ : Type} {S : Sys A R σ χ Op Res} {G : Guard A σ χ Op}

/-- The premises of the rule: `I` holds between the states of the system and those of the object. -/
structure Simulation (S : Sys A R σ χ Op Res) (G : Guard A σ χ Op) (c₀ : Cfg A R σ Op Res)
    (spec : Spec τ Op Res) (b₀ : τ) (I : σ → τ → (Tid → Place Op Res) → Prop) : Prop where
  init : I c₀.shared b₀ fun _ => .idle
  /-- A call has no effect. -/
  call : ∀ {c t op b place}, S.Reach G c₀ c → c.run t = none → G.call c.shared t op →
    I c.shared b place →
      place t = .idle ∧ I (S.onCall c.shared t op) b (Function.update place t (.called op))
  /-- An action is the point of its call, or none. -/
  act : ∀ {c t e op} {a : A} {k : R a → Prog A R Res} {r : R a} {s' b place}, S.Reach G c₀ c →
    c.run t = some (op, .act a k) → G.act c.shared t e a →
    S.exec c.shared t e a = some (r, s') → I c.shared b place →
      ∃ b' place', AtMostPoint spec t b place b' place' ∧ I s' b' place'
  /-- A call that returns has had its effect, or has it now. -/
  ret : ∀ {c t op x b place}, S.Reach G c₀ c → c.run t = some (op, .ret x) →
    I c.shared b place →
      ∃ b' place', AtMostPoint spec t b place b' place' ∧ place' t = .done op x ∧
        I (S.onRet c.shared t op x) b' (Function.update place' t .idle)

/-- **The rule.** -/
theorem Sys.History.linearizes {I : σ → τ → (Tid → Place Op Res) → Prop}
    {c₀ c : Cfg A R σ Op Res} (hsim : Simulation S G c₀ spec b₀ I) (hc : S.History G c₀ h c) :
    ∃ marks b place, Linearizes spec b₀ h marks b place ∧ I c.shared b place := by
  induction hc with
  | init => exact ⟨[], b₀, _, linearizes_nil, hsim.init⟩
  | call t op hc hidle hg ih =>
    obtain ⟨marks, b, place, hl, hI⟩ := ih
    obtain ⟨hp, hI'⟩ := hsim.call hc.reach hidle hg hI
    exact ⟨_, b, _, hl.call hp op, hI'⟩
  | act t e hc hrun hg hex ih =>
    obtain ⟨marks, b, place, hl, hI⟩ := ih
    obtain ⟨b', place', hp, hI'⟩ := hsim.act hc.reach hrun hg hex hI
    obtain ⟨marks', hl'⟩ := hp.linearizes hl
    exact ⟨marks', b', place', hl', hI'⟩
  | ret t hc hrun ih =>
    obtain ⟨marks, b, place, hl, hI⟩ := ih
    obtain ⟨b', place', hp, hdone, hI'⟩ := hsim.ret hc.reach hrun hI
    obtain ⟨marks', hl'⟩ := hp.linearizes hl
    exact ⟨_, b', _, hl'.ret hdone, hI'⟩

end

end Domq.Lib
