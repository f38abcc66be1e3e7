import Domq.Mq.Subscribe

/-!
# The replies of `PopMsg`

`PopMsg` pipelines an `LPOP` and the `HSET` of the last visit, and hands out the message only after
both replies have passed `_CHECK_REPLY`. By then Redis has removed the message from its list.

`Answers` is a connection on which every `GetReply` can have any outcome: `ρ i` is what the `i`-th
one gives, any reply or (`none`) a failure.

* `popMsg_delivers_iff`: a message that Redis has handed over reaches the caller exactly if the
  reply to the `HSET` is an integer, and the length of the message is not negative as an `int`.
-/

namespace Domq.Mq

open Domq.Lib Domq.Redis

/-- A thread, and how many times it has asked for a reply. -/
structure Answers where
  mgr : QueueMgr
  asked : Nat

/-- An action, the `i`-th `GetReply` having the outcome `ρ i`. -/
def Answers.exec (ρ : Nat → Option Reply) (now : Nat) (uuid : Uuid) (s : Answers) :
    (a : Act) → Option (a.Res × Answers)
  | .append _ => some ((), s)
  | .getReply => some (ρ s.asked, { s with asked := s.asked + 1 })
  | .command _ => some (ρ s.asked, { s with asked := s.asked + 1 })
  | .time => some (now, s)
  | .locked sec => (sec.run now uuid s.mgr).map fun rm => (rm.1, { s with mgr := rm.2 })

/-- `PopMsg` returns success with this message. -/
def Delivers (ρ : Nat → Option Reply) (now : Nat) (uuid : Uuid) (m : QueueMgr) (code s : Bytes) :
    Prop :=
  ∃ st, (popMsg code).eval (Answers.exec ρ now uuid) ⟨m, 0⟩ = some ((SUCCESS, some s), st)

variable {ρ : Nat → Option Reply} {now : Nat} {uuid : Uuid} {m : QueueMgr} {code : Bytes}

/-- `PopMsg` on a cached queue, when the reply to its `LPOP` is a string. -/
theorem eval_popMsg {q c : CStr} {ty : Int32} {s : Bytes}
    (hgo : (m.popLock now code).1 = .go q c ty)
    (hs : ρ 0 = some (.string s)) :
    (popMsg code).eval (Answers.exec ρ now uuid) ⟨m, 0⟩ =
      some (if checkReply (ρ 1) .integer (-1) true ≠ 0 then
          (checkReply (ρ 1) .integer (-1) true, none)
        else if (Int32.ofNat s.length).toInt < 0 then (INTERNAL_ERROR, some s)
        else (SUCCESS, some s), ⟨(m.popLock now code).2, 2⟩) := by
  have hlock : m.popLock now code = (.go q c ty, (m.popLock now code).2) := Prod.ext hgo rfl
  unfold popMsg
  rw [locked_bind, Prog.eval_act]
  simp only [Answers.exec, Section.run, Option.map_some, Option.bind_some]
  rw [hlock]
  simp only [time_bind, append_bind, getReply_bind, Prog.eval_act, Answers.exec, Option.bind_some,
    hs]
  rw [if_neg (by simp [checkReply, Reply.type])]
  simp only [Prog.eval_act, Answers.exec, Option.bind_some, Nat.zero_add]
  by_cases hc : checkReply (ρ 1) .integer (-1) true ≠ 0
  · rw [if_pos hc, if_pos hc]
    rfl
  · rw [if_neg hc, if_neg hc]
    by_cases hlen : (Int32.ofNat s.length).toInt < 0
    · rw [if_pos hlen]
      exact if_pos hlen ▸ rfl
    · rw [if_neg hlen]
      exact if_neg hlen ▸ rfl

/-- The reply `_CHECK_REPLY` accepts for the `HSET`. -/
theorem checkReply_eq_zero (r : Option Reply) :
    checkReply r .integer (-1) true = 0 ↔ ∃ n, r = some (.integer n) := by
  cases r with
  | none => simp [checkReply]
  | some r => cases r <;> simp [checkReply, Reply.type, NO_EXIST]

/-- **A popped message reaches the caller** exactly if the reply to the `HSET` that follows its
`LPOP` is an integer, and its length is not negative as an `int`. -/
theorem popMsg_delivers_iff {q c : CStr} {ty : Int32} {s : Bytes}
    (hgo : (m.popLock now code).1 = .go q c ty) (hs : ρ 0 = some (.string s)) :
    Delivers ρ now uuid m code s ↔
      (∃ n, ρ 1 = some (.integer n)) ∧ 0 ≤ (Int32.ofNat s.length).toInt := by
  unfold Delivers
  rw [eval_popMsg hgo hs, ← checkReply_eq_zero]
  constructor
  · rintro ⟨st, heq⟩
    have hret := congrArg (fun x => x.map Prod.fst) heq
    by_cases hc : checkReply (ρ 1) .integer (-1) true ≠ 0
    · rw [if_pos hc] at hret
      exact absurd hret (by simp)
    · rw [if_neg hc] at hret
      by_cases hlen : (Int32.ofNat s.length).toInt < 0
      · rw [if_pos hlen] at hret
        exact absurd hret (by simp [INTERNAL_ERROR, SUCCESS])
      · exact ⟨not_not.mp hc, not_lt.mp hlen⟩
  · rintro ⟨hc, hlen⟩
    rw [if_neg (not_not.mpr hc), if_neg (not_lt.mpr hlen)]
    exact ⟨_, rfl⟩

/-- A manager with one session, of a publisher of the `SUB2PUB` queue `q`. -/
def openedSession : QueueMgr :=
  ((QueueMgr.init 1000).openLock 5 (.ofByte 0) (openSub .publisher)).2

/-- The `HSET` is answered by an error: the message is gone. -/
theorem popMsg_drops_message :
    ¬ ∀ (ρ : Nat → Option Reply) (m : QueueMgr) (code s : Bytes),
      (∃ q c ty, (m.popLock 5 code).1 = .go q c ty) → ρ 0 = some (.string s) →
      Delivers ρ 5 ⟨List.replicate 16 1, rfl⟩ m code s := by
  intro h
  obtain ⟨st, heq⟩ := h
    (fun i => if i = 0 then some (.string (ascii "m")) else some (.error (ascii "OOM")))
    openedSession (hexText (List.replicate 16 0)) (ascii "m") ⟨_, _, _, rfl⟩ rfl
  have hret : some (-1 : Int) = some SUCCESS := congrArg (fun x => x.map fun y => y.1.1) heq
  exact absurd hret (by decide)

theorem popMsg_delivers_message :
    Delivers (fun i => if i = 0 then some (.string (ascii "m")) else some (.integer 0)) 5
      ⟨List.replicate 16 1, rfl⟩ openedSession (hexText (List.replicate 16 0)) (ascii "m") :=
  (popMsg_delivers_iff (q := ⟨ascii "q", by decide⟩) (c := ⟨ascii "c", by decide⟩) rfl rfl).mpr
    ⟨⟨0, rfl⟩, by decide⟩

end Domq.Mq
