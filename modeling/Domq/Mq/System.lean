import Domq.Mq.Mgr
import Domq.Lib.Interleave

/-!
# The queue server: worker threads, the manager and Redis

`callProg` is the procedure of each call `QueueProcessor` makes on `QueueMgr`. The shared `World` is
the manager's state, the Redis store, one connection per thread (`GetConnector` keeps one per
thread), and the history of the run.

* A locked section is one step; `time(NULL)` and `uuid_generate` inside it are the step's `Env`. A
  uuid never comes twice.
* An appended command waits in its thread's pipeline. Redis executes it, as one step, when its reply
  is taken: `redisGetReply` sends the pipeline when its first reply is asked for, and between that
  and the last reply a thread does nothing another one could see, so every order in which Redis can
  execute the commands of the threads is the order of some run. `Command` sends its command behind
  what is still unanswered and takes the first reply, as `redisvCommand` does.
* `Link.redis` answers from the store, `Link.any` with any reply at all (or none). Redis holds no
  string of more than 512 MB, so no text it replies is longer than an `int` can say.

`cur` and `log` are history: what the call a thread is in has done so far, and every atomic effect
and every return in the order they happened. No procedure reads them.
-/

namespace Domq.Mq

open Domq.Lib Domq.Redis

/-! ## Calls -/

/-- The calls on `QueueMgr`. -/
inductive Op
  | openQueue (a : OpenArgs)
  | closeQueue (msgQueueCode : Bytes)
  | pushMsg (msgQueueCode data : Bytes)
  | popMsg (msgQueueCode : Bytes)
  | loadQueueMeta
  | removeExpireMsgQueueCode (expireTime : Int)
  deriving DecidableEq

/-- What a call returns: its `int`, and the session code or the message it sets. -/
abbrev Ret := Int × Option Bytes

/-- The procedure of a call. -/
def callProg : Op → QProg Ret
  | .openQueue a => openQueue a
  | .closeQueue code => do
    let ret ← locked (.closeQueue code)
    return (ret, none)
  | .pushMsg code data => do
    let ret ← pushMsg code data
    return (ret, none)
  | .popMsg code => popMsg code
  | .loadQueueMeta => do
    let ret ← loadQueues
    return (ret, none)
  | .removeExpireMsgQueueCode e => do
    locked (.removeExpireMsgQueueCode e)
    return (0, none)

/-! ## History -/

/-- An atomic effect: a command with its reply, or a section with its time and result. -/
inductive Ev
  | redis (c : Cmd) (r : Reply)
  | locked (now : Nat) (s : Section) (r : s.Res)

/-- A call a thread is in, and what it has done so far. -/
structure Call where
  op : Op
  evs : List Ev

def Call.did (call : Call) (ev : Ev) : Call := { call with evs := call.evs ++ [ev] }

theorem evs_concat {evs : List Ev} {ev x : Ev} {l : List Ev} (h : evs ++ [ev] = l ++ [x]) :
    evs = l ∧ ev = x := by
  obtain ⟨h₁, h₂⟩ := List.append_inj' h rfl
  exact ⟨h₁, List.singleton_inj.mp h₂⟩

/-- An entry of the history. -/
inductive Event
  | did (t : Tid) (call : Option Call) (ev : Ev)
  | ret (t : Tid) (call : Option Call) (x : Ret)

/-! ## The shared state -/

structure World where
  mgr : QueueMgr
  redis : Store
  /-- the commands a thread has appended and not had answered -/
  pipe : Tid → List Cmd
  /-- the uuids generated so far -/
  used : List Uuid
  /-- the last value of `time(NULL)` -/
  clock : Nat
  cur : Tid → Option Call
  log : List Event

/-- What the outside world contributes to a step. -/
structure Env where
  now : Nat
  uuid : Uuid
  reply : Option Reply

/-- Who answers the connectors. -/
inductive Link
  | redis | any

namespace World

/-- Thread `t` has had the effect `ev`. -/
def did (w : World) (t : Tid) (ev : Ev) : World :=
  { w with
    cur := Function.update w.cur t ((w.cur t).map fun call => call.did ev)
    log := w.log ++ [.did t (w.cur t) ev] }

/-- Redis executes the first unanswered command of `t`, and `t` takes the reply. -/
def answer (w : World) (t : Tid) : Option (Option Reply × World) :=
  match w.pipe t with
  | [] => none
  | c :: cs =>
    if (c.exec w.redis).1.Short then
      some (some (c.exec w.redis).1,
        { w with
          redis := (c.exec w.redis).2
          pipe := Function.update w.pipe t cs }.did t (.redis c (c.exec w.redis).1))
    else none

def append (w : World) (t : Tid) (c : Cmd) : World :=
  { w with pipe := Function.update w.pipe t (w.pipe t ++ [c]) }

/-- A section of thread `t`; not possible with a uuid that was generated before. -/
def lock (w : World) (t : Tid) (e : Env) (s : Section) : Option (s.Res × World) :=
  if s.takesUuid ∧ e.uuid ∈ w.used then none
  else
    (s.run e.now e.uuid w.mgr).map fun rm =>
      (rm.1,
        { w with
          mgr := rm.2
          clock := e.now
          used := if s.takesUuid then e.uuid :: w.used else w.used }.did t
            (.locked e.now s rm.1))

/-- One atomic action of thread `t`. -/
def exec (link : Link) (w : World) (t : Tid) (e : Env) : (a : Act) → Option (a.Res × World)
  | .append c => some ((), w.append t c)
  | .getReply =>
    match link with
    | .redis => w.answer t
    | .any => some (e.reply, w)
  | .command c =>
    match link with
    | .redis => (w.append t c).answer t
    | .any => some (e.reply, w)
  | .time => some (e.now, { w with clock := e.now })
  | .locked s => w.lock t e s

/-! ### What an action does -/

variable {w w' : World} {t : Tid} {e : Env}

/-- What a locked section does to the world. -/
theorem lock_eq {s : Section} {r : s.Res}
    (h : w.lock t e s = some (r, w')) :
    (s.takesUuid → e.uuid ∉ w.used) ∧
      ∃ m', s.run e.now e.uuid w.mgr = some (r, m') ∧
        w' = { w with
          mgr := m'
          clock := e.now
          used := if s.takesUuid then e.uuid :: w.used else w.used }.did t
            (.locked e.now s r) := by
  unfold lock at h
  split at h
  · cases h
  · rename_i hu
    obtain ⟨⟨r', m'⟩, hrun, heq⟩ := Option.map_eq_some_iff.mp h
    cases heq
    exact ⟨fun hs hmem => hu ⟨hs, hmem⟩, m', hrun, rfl⟩

/-- The calls in progress after an effect of `t`. -/
theorem did_cur {ev : Ev} {t' : Tid} {call' : Call} (h : (w.did t ev).cur t' = some call') :
    (t' = t ∧ ∃ call, w.cur t = some call ∧ call' = call.did ev) ∨
      (t' ≠ t ∧ w.cur t' = some call') := by
  simp only [did] at h
  by_cases ht : t' = t
  · subst ht
    rw [Function.update_self] at h
    obtain ⟨call, hcur, heq⟩ := Option.map_eq_some_iff.mp h
    exact .inl ⟨rfl, call, hcur, heq.symm⟩
  · rw [Function.update_of_ne ht] at h
    exact .inr ⟨ht, h⟩

/-- What holds of every operation in progress holds of them after an effect. -/
theorem did_op {P : Tid → Op → Prop} {ev : Ev} (h : ∀ t' call, w.cur t' = some call → P t' call.op)
    (t' : Tid) (call' : Call) (hcur : (w.did t ev).cur t' = some call') : P t' call'.op := by
  rcases did_cur hcur with ⟨rfl, call, hcur₀, rfl⟩ | ⟨-, hcur₀⟩
  · exact h t' call hcur₀
  · exact h t' call' hcur₀

/-- What holds of every effect of the calls in progress, and of one more, holds of them after it. -/
theorem did_evs {P : Ev → Prop} {ev : Ev}
    (h : ∀ t' call, w.cur t' = some call → ∀ ev' ∈ call.evs, P ev') (hev : P ev)
    (t' : Tid) (call' : Call) (hcur : (w.did t ev).cur t' = some call') :
    ∀ ev' ∈ call'.evs, P ev' := by
  rcases did_cur hcur with ⟨-, call, hcur₀, rfl⟩ | ⟨-, hcur₀⟩
  · exact List.forall_mem_append.mpr ⟨h t call hcur₀, List.forall_mem_singleton.mpr hev⟩
  · exact h t' call' hcur₀

/-- The calls in progress after a call or a return of `t`. -/
theorem update_cur {cur : Tid → Option Call} {o : Option Call} {t' : Tid} {call' : Call}
    (h : Function.update cur t o t' = some call') :
    (t' = t ∧ o = some call') ∨ (t' ≠ t ∧ cur t' = some call') := by
  by_cases ht : t' = t
  · subst ht
    rw [Function.update_self] at h
    exact .inl ⟨rfl, h⟩
  · rw [Function.update_of_ne ht] at h
    exact .inr ⟨ht, h⟩

theorem answer_eq {r : Option Reply} (h : w.answer t = some (r, w')) :
    ∃ c cs, w.pipe t = c :: cs ∧ r = some (c.exec w.redis).1 ∧
      w' = { w with
        redis := (c.exec w.redis).2
        pipe := Function.update w.pipe t cs }.did t (.redis c (c.exec w.redis).1) := by
  unfold answer at h
  cases hp : w.pipe t with
  | nil =>
    rw [hp] at h
    cases h
  | cons c cs =>
    simp only [hp] at h
    split at h
    · cases h
      exact ⟨c, cs, rfl, rfl, rfl⟩
    · cases h

theorem answer_short {rep : Reply} (h : w.answer t = some (some rep, w')) : rep.Short := by
  unfold answer at h
  split at h
  · cases h
  · split at h
    · rename_i hshort
      cases h
      exact hshort
    · cases h

/-- An action that is no locked section leaves the manager alone, and adds commands with their
replies to the history at most. -/
theorem exec_cases {link : Link} {a : Act} {r : a.Res} (hex : w.exec link t e a = some (r, w')) :
    (w'.mgr = w.mgr ∧ w'.used = w.used ∧ (w'.clock = w.clock ∨ a = .time ∧ w'.clock = e.now) ∧
      (w'.log = w.log ∨ ∃ c r, w'.log = w.log ++ [.did t (w.cur t) (.redis c r)])) ∨
    ∃ s, a = .locked s := by
  cases a with
  | append c =>
    cases hex
    exact .inl ⟨rfl, rfl, .inl rfl, .inl rfl⟩
  | getReply =>
    cases link with
    | redis =>
      obtain ⟨c, cs, -, -, rfl⟩ := answer_eq hex
      exact .inl ⟨rfl, rfl, .inl rfl, .inr ⟨_, _, rfl⟩⟩
    | any =>
      cases hex
      exact .inl ⟨rfl, rfl, .inl rfl, .inl rfl⟩
  | command c =>
    cases link with
    | redis =>
      obtain ⟨c, cs, -, -, rfl⟩ := answer_eq hex
      exact .inl ⟨rfl, rfl, .inl rfl, .inr ⟨_, _, rfl⟩⟩
    | any =>
      cases hex
      exact .inl ⟨rfl, rfl, .inl rfl, .inl rfl⟩
  | time =>
    cases hex
    exact .inl ⟨rfl, rfl, .inr ⟨rfl, rfl⟩, .inl rfl⟩
  | locked s => exact .inr ⟨s, rfl⟩

/-- An action of `t` is not seen in the calls of the others. -/
theorem exec_cur {link : Link} {a : Act} {r : a.Res} (hex : w.exec link t e a = some (r, w'))
    {t' : Tid} (ht : t' ≠ t) : w'.cur t' = w.cur t' := by
  cases a with
  | append c =>
    cases hex
    rfl
  | getReply =>
    cases link with
    | redis =>
      obtain ⟨c, cs, -, -, rfl⟩ := answer_eq hex
      exact Function.update_of_ne ht _ _
    | any =>
      cases hex
      rfl
  | command c =>
    cases link with
    | redis =>
      obtain ⟨c, cs, -, -, rfl⟩ := answer_eq hex
      exact Function.update_of_ne ht _ _
    | any =>
      cases hex
      rfl
  | time =>
    cases hex
    rfl
  | locked s =>
    obtain ⟨-, m', -, rfl⟩ := lock_eq hex
    exact Function.update_of_ne ht _ _

end World

/-- The server. -/
def server (link : Link) : Sys Act Act.Res World Env Op Ret where
  prog := callProg
  exec := World.exec link
  onCall w t op := { w with cur := Function.update w.cur t (some ⟨op, []⟩) }
  onRet w t _ x :=
    { w with cur := Function.update w.cur t none, log := w.log ++ [.ret t (w.cur t) x] }

/-- Configurations of the server. -/
abbrev Conf := Cfg Act Act.Res World Op Ret

/-- A server that has just been started: no call in progress, nothing appended, no history. -/
structure Boot (c : Conf) : Prop where
  run : ∀ t, c.run t = none
  pipe : ∀ t, c.shared.pipe t = []
  cur : ∀ t, c.shared.cur t = none
  log : c.shared.log = []

/-- The server over a manager and a store, before any call. -/
def boot (m : QueueMgr) (redis : Store) : Conf :=
  ⟨⟨m, redis, fun _ => [], [], 0, fun _ => none, []⟩, fun _ => none⟩

theorem boot_boot (m : QueueMgr) (redis : Store) : Boot (boot m redis) :=
  ⟨fun _ => rfl, fun _ => rfl, fun _ => rfl, rfl⟩

/-- Only the first `n` threads have been in a call. -/
def Threads (n : Nat) (c : Conf) : Prop := ∀ t, n ≤ t → c.shared.cur t = none

/-- The thread that moves. -/
def mover : Sys.Move Env Op → Tid
  | .call t _ => t
  | .step t _ => t

theorem Threads.move {link : Link} {n : Nat} {c c' : Conf} (h : Threads n c)
    {mv : Sys.Move Env Op} (hmv : mover mv < n) (hm : (server link).move c mv = some c') :
    Threads n c' := by
  intro t ht
  have hne : t ≠ mover mv := by
    rintro rfl
    exact absurd hmv (Nat.not_lt.mpr ht)
  cases mv with
  | call t' op =>
    simp only [Sys.move] at hm
    split at hm
    · cases hm
      exact (Function.update_of_ne hne _ _).trans (h t ht)
    · cases hm
  | step t' e =>
    simp only [Sys.move] at hm
    split at hm
    · cases hm
    · cases hm
      exact (Function.update_of_ne hne _ _).trans (h t ht)
    · split at hm
      · cases hm
      · rename_i hex
        cases hm
        exact (World.exec_cur hex hne).trans (h t ht)

/-- Runs without a reload. -/
def noReload : Guard Act World Env Op := ⟨fun _ _ op => op ≠ .loadQueueMeta, fun _ _ _ _ => True⟩

/-- A test that suffices for `noReload`. -/
def keepsCache (_ : Conf) : Sys.Move Env Op → Bool
  | .call _ .loadQueueMeta => false
  | _ => true

theorem allows_noReload (c : Conf) (mv : Sys.Move Env Op) (h : keepsCache c mv) :
    Sys.Allows noReload c mv := by
  cases mv with
  | call t op =>
    rintro rfl
    cases h
  | step t e => exact Sys.allows_step fun _ _ _ _ => True.intro

/-- The members of a `QueueMgr` that has just been constructed, and the limit `Open` reads from the
configuration. -/
def QueueMgr.init (removeOnceCount : Int32) : QueueMgr :=
  ⟨fun _ => none, fun _ => none, [], fun _ => none, 0, removeOnceCount⟩

/-! ## Schedules -/

/-- Thread `t` takes `n` steps. -/
def steps (t : Tid) (n : Nat) (e : Env) : List (Sys.Move Env Op) := List.replicate n (.step t e)

/-- Thread `t` makes a call and takes `n` steps of it. -/
def callSteps (t : Tid) (op : Op) (n : Nat) (e : Env) : List (Sys.Move Env Op) :=
  .call t op :: steps t n e

/-! The schedules below are on a queue `q`, with a client `c`. -/

theorem noNul_q : ∀ b ∈ ascii "q", b ≠ 0 := by decide

theorem noNul_c : ∀ b ∈ ascii "c", b ≠ 0 := by decide

end Domq.Mq
