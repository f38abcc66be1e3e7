import Domq.Mq.System

/-!
# One thread and its connection, for any peer

A `Talk` is a thread alone with its connector. The peer answers each command when it is issued, from
a state of its own, with any reply at all or with none (a failed read); the answers are delivered in
the order of the commands. A reader who has taken every answer waits for ever.

* `Talk.log` is every command issued on the connection with the answer to it, `Talk.taken` how many
  of the answers the thread has read.
* `Command` on a connection with unread replies takes the oldest of them, as `redisvCommand` does.
* `answering` is a peer that never fails. `Redis.refusing` is Redis over a store, where each command
  may be refused with an error and without effect.

`eval_append`, `eval_getReply_unread` and the like run a procedure one action further.
-/

namespace Domq.Mq

open Domq.Lib Domq.Redis

/-- Whoever answers: the answer to a command, and the state afterwards. -/
abbrev Peer (π : Type) := Cmd → π → Option Reply × π

/-- A peer on a connection that does not fail. -/
def answering {π : Type} (P : Cmd → π → Reply × π) : Peer π :=
  fun c s => (some (P c s).1, (P c s).2)

/-- Redis, refusing its `n`-th command with the error `refuse n`. -/
def refusing (refuse : Nat → Option Bytes) : Cmd → Nat × Store → Reply × (Nat × Store) :=
  fun c s =>
    match refuse s.1 with
    | some msg => (.error msg, s.1 + 1, s.2)
    | none => ((c.exec s.2).1, s.1 + 1, (c.exec s.2).2)

/-- A thread with its connection. -/
structure Talk (π : Type) where
  mgr : QueueMgr
  peer : π
  /-- the commands issued, each with its answer -/
  log : List (Cmd × Option Reply)
  /-- how many of the answers were read -/
  taken : Nat
  /-- how often the clock was read -/
  ticks : Nat

namespace Talk

variable {π α β : Type} {P : Peer π} {clock : Nat → Nat} {uuid : Uuid}

/-- A command goes out, and the peer answers it. -/
def issue (P : Peer π) (c : Cmd) (w : Talk π) : Talk π :=
  { w with peer := (P c w.peer).2, log := w.log ++ [(c, (P c w.peer).1)] }

/-- The oldest unread answer is read. -/
def take (w : Talk π) : Option (Option Reply × Talk π) :=
  w.log[w.taken]?.map fun cr => (cr.2, { w with taken := w.taken + 1 })

/-- An action, the `i`-th clock reading being `clock i`. -/
def exec (P : Peer π) (clock : Nat → Nat) (uuid : Uuid) (w : Talk π) :
    (a : Act) → Option (a.Res × Talk π)
  | .append c => some ((), w.issue P c)
  | .getReply => w.take
  | .command c => (w.issue P c).take
  | .time => some (clock w.ticks, { w with ticks := w.ticks + 1 })
  | .locked s =>
    (s.run (clock w.ticks) uuid w.mgr).map fun rm =>
      (rm.1, { w with mgr := rm.2, ticks := w.ticks + 1 })

/-- A connection on which nothing was issued yet. -/
def idle (m : QueueMgr) (s : π) : Talk π := ⟨m, s, [], 0, 0⟩

/-- Every answer was read. -/
def Idle (w : Talk π) : Prop := w.taken = w.log.length

/-- The answers still to be read. -/
def unread (w : Talk π) : List (Cmd × Option Reply) := w.log.drop w.taken

/-- The answers to a list of commands. -/
def answers (P : Peer π) : List Cmd → π → List (Cmd × Option Reply)
  | [], _ => []
  | c :: cs, s => (c, (P c s).1) :: answers P cs (P c s).2

/-- The peer after a list of commands. -/
def after (P : Peer π) : List Cmd → π → π
  | [], s => s
  | c :: cs, s => after P cs (P c s).2

/-! ## One action further -/

theorem eval_append (c : Cmd) (k : Unit → QProg α) (w : Talk π) :
    (append c >>= k).eval (exec P clock uuid) w = (k ()).eval (exec P clock uuid) (w.issue P c) :=
  rfl

theorem eval_time (k : Nat → QProg α) (w : Talk π) :
    (time >>= k).eval (exec P clock uuid) w =
      (k (clock w.ticks)).eval (exec P clock uuid) { w with ticks := w.ticks + 1 } := rfl

theorem eval_getReply (k : Option Reply → QProg α) (w : Talk π) :
    (getReply >>= k).eval (exec P clock uuid) w =
      w.take.bind fun rw => (k rw.1).eval (exec P clock uuid) rw.2 := by
  rw [getReply_bind, Prog.eval_act]
  rfl

theorem eval_command (c : Cmd) (k : Option Reply → QProg α) (w : Talk π) :
    (command c >>= k).eval (exec P clock uuid) w =
      (w.issue P c).take.bind fun rw => (k rw.1).eval (exec P clock uuid) rw.2 := by
  rw [command_bind, Prog.eval_act]
  rfl

theorem eval_locked {s : Section} {r : s.Res} {m' : QueueMgr} (k : s.Res → QProg α) {w : Talk π}
    (h : s.run (clock w.ticks) uuid w.mgr = some (r, m')) :
    (locked s >>= k).eval (exec P clock uuid) w =
      (k r).eval (exec P clock uuid) { w with mgr := m', ticks := w.ticks + 1 } := by
  rw [locked_bind, Prog.eval_act]
  show ((s.run (clock w.ticks) uuid w.mgr).map _).bind _ = _
  rw [h]
  rfl

theorem eval_appendAll (cs : List Cmd) (k : Unit → QProg α) (w : Talk π) :
    (appendAll cs >>= k).eval (exec P clock uuid) w =
      (k ()).eval (exec P clock uuid)
        { w with peer := after P cs w.peer, log := w.log ++ answers P cs w.peer } := by
  induction cs generalizing w with
  | nil =>
    show (k ()).eval _ w = (k ()).eval _ { w with log := w.log ++ [] }
    rw [List.append_nil]
  | cons c cs ih =>
    have h := ih (w.issue P c)
    simp only [issue, List.append_assoc, List.singleton_append] at h
    exact h

theorem length_answers (cs : List Cmd) (s : π) : (answers P cs s).length = cs.length := by
  induction cs generalizing s with
  | nil => rfl
  | cons c cs ih => exact congrArg Nat.succ (ih _)

theorem answers_fst (cs : List Cmd) (s : π) : (answers P cs s).map Prod.fst = cs := by
  induction cs generalizing s with
  | nil => rfl
  | cons c cs ih => exact congrArg (c :: ·) (ih _)

/-- A peer that does not fail answers every command. -/
theorem answers_some {P : Cmd → π → Reply × π} {cs : List Cmd} {s : π} :
    ∀ e ∈ answers (answering P) cs s, ∃ r, e.2 = some r := by
  induction cs generalizing s with
  | nil => simp [answers]
  | cons c cs ih =>
    intro e he
    rcases List.mem_cons.mp he with rfl | he
    · exact ⟨_, rfl⟩
    · exact ih e he

/-- With unread answers, the next one is read. -/
theorem take_of_unread {w : Talk π} {c : Cmd} {r : Option Reply}
    {rest : List (Cmd × Option Reply)} (h : w.unread = (c, r) :: rest) :
    w.take = some (r, { w with taken := w.taken + 1 }) := by
  have hget : w.log[w.taken]? = some (c, r) := by
    rw [← List.head?_drop]
    exact congrArg List.head? h
  rw [take, hget]
  rfl

theorem unread_take {w : Talk π} {c : Cmd} {r : Option Reply}
    {rest : List (Cmd × Option Reply)} (h : w.unread = (c, r) :: rest) :
    unread { w with taken := w.taken + 1 } = rest := by
  have htail := congrArg List.tail h
  rw [unread, List.tail_drop] at htail
  exact htail

theorem eval_getReply_unread {c : Cmd} {r : Option Reply} {rest : List (Cmd × Option Reply)}
    (k : Option Reply → QProg α) {w : Talk π} (h : w.unread = (c, r) :: rest) :
    (getReply >>= k).eval (exec P clock uuid) w =
      (k r).eval (exec P clock uuid) { w with taken := w.taken + 1 } := by
  rw [eval_getReply, take_of_unread h]
  rfl

theorem Idle.unread_eq {w : Talk π} (hw : w.Idle) : w.unread = [] := by
  show w.log.drop w.taken = []
  rw [hw, List.drop_length]

theorem Idle.unread_issue {w : Talk π} (hw : w.Idle) (c : Cmd) :
    (w.issue P c).unread = [(c, (P c w.peer).1)] := by
  show (w.log ++ [_]).drop w.taken = _
  rw [hw]
  exact List.drop_left

theorem Idle.issue {w : Talk π} (hw : w.Idle) (c : Cmd) :
    Idle { w.issue P c with taken := w.taken + 1 } := by
  show w.taken + 1 = (w.log ++ [_]).length
  rw [List.length_append, hw]
  rfl

/-- One command appended on an idle connection, and its reply read. -/
theorem Idle.ask {w : Talk π} (hw : w.Idle) {c : Cmd} {k : Option Reply → QProg α}
    {x : Option (α × Talk π)}
    (h : (append c >>= fun _ => getReply >>= k).eval (exec P clock uuid) w = x) :
    ∃ r w₁, (r, w₁.peer) = P c w.peer ∧ w₁.Idle ∧ w₁.mgr = w.mgr ∧ w₁.log = w.log ++ [(c, r)] ∧
      (k r).eval (exec P clock uuid) w₁ = x := by
  rw [eval_append, eval_getReply_unread _ (hw.unread_issue c)] at h
  exact ⟨_, _, rfl, hw.issue (P := P) c, rfl, rfl, h⟩

/-- Two commands appended on an idle connection, and the first reply read. -/
theorem Idle.askTwo {w : Talk π} (hw : w.Idle) {c₁ c₂ : Cmd} {k : Option Reply → QProg α}
    {x : Option (α × Talk π)}
    (h : (append c₁ >>= fun _ => append c₂ >>= fun _ => getReply >>= k).eval
      (exec P clock uuid) w = x) :
    ∃ r₁ r₂ w₁, r₁ = (P c₁ w.peer).1 ∧ (r₂, w₁.peer) = P c₂ (P c₁ w.peer).2 ∧
      w₁.unread = [(c₂, r₂)] ∧ w₁.mgr = w.mgr ∧ w₁.taken + 1 = w₁.log.length ∧
      w₁.log = w.log ++ [(c₁, r₁), (c₂, r₂)] ∧ (k r₁).eval (exec P clock uuid) w₁ = x := by
  have hu : ((w.issue P c₁).issue P c₂).unread =
      [(c₁, (P c₁ w.peer).1), (c₂, (P c₂ (w.issue P c₁).peer).1)] := by
    show ((w.log ++ [_]) ++ [_]).drop w.taken = _
    rw [List.append_assoc]
    exact List.drop_left' hw.symm
  rw [eval_append, eval_append, eval_getReply_unread _ hu] at h
  refine ⟨_, _, _, rfl, rfl, unread_take hu, rfl, ?_, List.append_assoc _ _ _, h⟩
  show w.taken + 1 + 1 = ((w.log ++ [_]) ++ [_]).length
  rw [List.length_append, List.length_append, hw]
  rfl

/-- The same with a look at the clock between the two. -/
theorem Idle.askTwoTime {w : Talk π} (hw : w.Idle) {c₁ : Cmd} {c₂ : Nat → Cmd}
    {k : Option Reply → QProg α} {x : Option (α × Talk π)}
    (h : (append c₁ >>= fun _ => time >>= fun now => append (c₂ now) >>= fun _ =>
      getReply >>= k).eval (exec P clock uuid) w = x) :
    ∃ now r₁ r₂ w₁, r₁ = (P c₁ w.peer).1 ∧ (r₂, w₁.peer) = P (c₂ now) (P c₁ w.peer).2 ∧
      w₁.unread = [(c₂ now, r₂)] ∧ w₁.mgr = w.mgr ∧ (k r₁).eval (exec P clock uuid) w₁ = x := by
  have hu : (Talk.issue P (c₂ (clock w.ticks)) { w.issue P c₁ with ticks := w.ticks + 1 }).unread =
      [(c₁, (P c₁ w.peer).1),
       (c₂ (clock w.ticks), (P (c₂ (clock w.ticks)) (P c₁ w.peer).2).1)] := by
    show ((w.log ++ [_]) ++ [_]).drop w.taken = _
    rw [List.append_assoc]
    exact List.drop_left' hw.symm
  rw [eval_append, eval_time, eval_append] at h
  replace h : (getReply >>= k).eval (exec P clock uuid)
    (Talk.issue P (c₂ (clock w.ticks)) { w.issue P c₁ with ticks := w.ticks + 1 }) = x := h
  rw [eval_getReply_unread _ hu] at h
  exact ⟨clock w.ticks, _, _, _, rfl, rfl, unread_take hu, rfl, h⟩

/-- Commands appended on an idle connection. -/
theorem Idle.appendAll {w : Talk π} (hw : w.Idle) {cs : List Cmd} {k : Unit → QProg α}
    {x : Option (α × Talk π)} (h : (Mq.appendAll cs >>= k).eval (exec P clock uuid) w = x) :
    ∃ lens w₁, lens = answers P cs w.peer ∧ w₁.peer = after P cs w.peer ∧
      lens.map Prod.fst = cs ∧ w₁.unread = lens ∧ w₁.mgr = w.mgr ∧
      w₁.taken + cs.length = w₁.log.length ∧ w₁.log = w.log ++ lens ∧
      (k ()).eval (exec P clock uuid) w₁ = x := by
  rw [eval_appendAll] at h
  refine ⟨answers P cs w.peer, _, rfl, ?_, answers_fst cs w.peer, ?_, ?_, ?_, ?_, h⟩
  · rfl
  · exact List.drop_left' hw.symm
  · rfl
  · show w.taken + cs.length = (w.log ++ answers P cs w.peer).length
    rw [List.length_append, length_answers, hw]
  · rfl

/-- What was said stays said. -/
theorem log_prefix {p : QProg α} {w w' : Talk π} {x : α}
    (h : p.eval (exec P clock uuid) w = some (x, w')) : w.log <+: w'.log := by
  induction p generalizing w with
  | ret y =>
    cases h
    exact List.prefix_rfl
  | act a k ih =>
    rw [Prog.eval_act] at h
    obtain ⟨⟨r, w₁⟩, he, h⟩ := Option.bind_eq_some_iff.mp h
    refine List.IsPrefix.trans ?_ (ih r h)
    cases a with
    | append c =>
      cases he
      exact List.prefix_append _ _
    | getReply =>
      obtain ⟨cr, -, hcr⟩ := Option.map_eq_some_iff.mp he
      cases hcr
      exact List.prefix_rfl
    | command c =>
      obtain ⟨cr, -, hcr⟩ := Option.map_eq_some_iff.mp he
      cases hcr
      exact List.prefix_append _ _
    | time =>
      cases he
      exact List.prefix_rfl
    | locked s =>
      obtain ⟨rm, -, hrm⟩ := Option.map_eq_some_iff.mp he
      cases hrm
      exact List.prefix_rfl

/-- On an idle connection a command gets its own answer. -/
theorem command_idle {w : Talk π} (hw : w.Idle) (c : Cmd) :
    (w.issue P c).take = some ((P c w.peer).1, { w.issue P c with taken := w.taken + 1 }) := by
  exact take_of_unread (hw.unread_issue c)

theorem Idle.command {w : Talk π} (hw : w.Idle) {c : Cmd} {k : Option Reply → QProg α}
    {x : Option (α × Talk π)}
    (h : (Mq.command c >>= k).eval (exec P clock uuid) w = x) :
    ∃ r w₁, (r, w₁.peer) = P c w.peer ∧ w₁.Idle ∧ w₁.mgr = w.mgr ∧ w₁.log = w.log ++ [(c, r)] ∧
      (k r).eval (exec P clock uuid) w₁ = x := by
  rw [eval_command, command_idle hw] at h
  exact ⟨_, _, rfl, hw.issue (P := P) c, rfl, rfl, h⟩

end Talk

/-! ## Procedures that only read replies -/

/-- The contract of a procedure that only reads replies. -/
def reading : Prog.Contract Act Act.Res Unit := ⟨fun _ a => a = .getReply, fun _ _ _ _ => True⟩

/-- The procedure only reads replies. -/
def ReadsOnly {α : Type} (p : QProg α) : Prop := p.Meets reading (fun _ _ => True) ()

theorem ReadsOnly.getReply {α : Type} {k : Option Reply → QProg α} (h : ∀ r, ReadsOnly (k r)) :
    ReadsOnly (getReply >>= k) := ⟨rfl, fun r _ _ => h r⟩

theorem ReadsOnly.bind {α β : Type} {p : QProg α} {k : α → QProg β} (hp : ReadsOnly p)
    (hk : ∀ x, ReadsOnly (k x)) : ReadsOnly (p >>= k) :=
  Prog.meets_bind.mpr (hp.mono fun _ x _ => hk x)

/-- Reading replies sends nothing and changes nothing. -/
theorem ReadsOnly.eval {π α : Type} {P : Peer π} {clock : Nat → Nat} {uuid : Uuid} {p : QProg α}
    (hp : ReadsOnly p) {w w' : Talk π} {x : α}
    (h : p.eval (Talk.exec P clock uuid) w = some (x, w')) :
    w'.mgr = w.mgr ∧ w'.peer = w.peer ∧ w'.log = w.log := by
  obtain ⟨_, -, hw⟩ := Prog.Meets.eval (K := fun _ (w' : Talk π) =>
    w'.mgr = w.mgr ∧ w'.peer = w.peer ∧ w'.log = w.log) (by
      rintro g w₁ a r w₂ hg rfl he
      obtain ⟨cr, -, hcr⟩ := Option.map_eq_some_iff.mp he
      cases hcr
      exact ⟨(), trivial, hg⟩) hp ⟨rfl, rfl, rfl⟩ h
  exact hw

end Domq.Mq
