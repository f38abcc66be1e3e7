import Domq.Netmgr.Threads
import Domq.Netmgr.Frame
import Domq.Mq.Protocol
import Domq.Mq.JsonRpc
import Domq.Mq.Processor

/-!
# From the socket to Redis: the order of `SendMsgRequest`s

One connection, the dispatcher and one worker, put together: `HandleInput` and `Extract` on the
pieces of the stream (`Domq.Netmgr.Frame`), `Decode` (`JsonRpc.lean`), the queues between the
threads (`Domq.Netmgr.Threads`), and the worker's call on `QueueMgr` against Redis (`System.lean`),
action by action.

* The worker takes a request and starts the call for it (`Event.get`), takes the actions of the call
  (`Event.act`), and goes on when the call has returned (`Event.process`).
* The `i`-th `Decode` is on the `i`-th payload, so what it answers is a function of `i`.

Result: `pushed_in_order`: the messages of a stream are `RPUSH`ed in the order of their frames, in a
run in which the dispatcher takes each request before the next is put.
-/

namespace Domq.Mq

open Domq.Lib Domq.Redis

/-! ## The calls of a run -/

/-- The `RPUSH`es of a history, in their order. -/
def rpushes (log : List Event) : List (Bytes × Bytes) :=
  log.filterMap fun e => match e with
    | .did _ _ ev => ev.rpush?
    | .ret _ _ _ => none

/-- The calls that have returned, in their order. -/
def returned (log : List Event) : List Op :=
  log.filterMap fun e => match e with
    | .did _ _ _ => none
    | .ret _ call _ => call.map Call.op

/-- The calls made by thread 0. -/
def called (w : World) : List Op := returned w.log ++ ((w.cur 0).map Call.op).toList

/-- What a call pushes when its locked section gives `lock`. -/
def pushesOf (lock : QueueMgr.PushLock) : Op → List (Bytes × Bytes)
  | .pushMsg _ data => lock.targets.map fun key => (key, data)
  | _ => []

/-! ### The locked section gives the same every time -/

namespace QueueMgr

variable (m : QueueMgr) (code : Bytes)

/-- What `PushMsg` takes out of its locked section. -/
def lockOf : PushLock :=
  match m.msgQueueCode2QueueName code with
  | none => .fail QUEUECODE_NOEXIST
  | some item =>
    match m.name2Queue item.queueName with
    | none => .fail NO_EXIST
    | some queue =>
      if full queue then .limit
      else .go item.queueName item.clientName queue.option.msgType
        (queue.clients.map SubQueue.client)

theorem pushLock_fst (now : Nat) : (m.pushLock now code).1 = m.lockOf code := by
  unfold pushLock getQueueName lockOf
  cases hi : m.msgQueueCode2QueueName code with
  | none => rfl
  | some item =>
    cases hq : m.name2Queue item.queueName with
    | none => simp only [hq]
    | some queue =>
      have hfull : full { queue with lastVisit := (now : Int) } ↔ full queue := Iff.rfl
      simp only [hq, touch_name2Queue, Function.update_self, hfull]
      split
      · rfl
      · rfl

theorem lockOf_pushLock (now : Nat) : (m.pushLock now code).2.lockOf code = m.lockOf code := by
  rcases m.pushLock_cases now code with ⟨ret, -, hl, -⟩ | ⟨item, queue, hi, hq, hl⟩
  · rw [hl]
  · rw [hl]
    have hsession := touch_session now code item queue m hi code
    rw [hi, Option.map_some] at hsession
    obtain ⟨item', hi', heq⟩ := Option.map_eq_some_iff.mp hsession
    obtain ⟨hname, hclient⟩ := Prod.mk.inj heq
    have hfull : full { queue with lastVisit := (now : Int) } ↔ full queue := Iff.rfl
    unfold lockOf
    simp only [hi', hi, hq, hname, hclient, touch_name2Queue, Function.update_self, hfull]

end QueueMgr

/-! ### One thread that pushes -/

/-- Only thread 0 calls, and only `PushMsg` with one code. -/
def onlyPushes (code : Bytes) : Guard Act World Env Op :=
  ⟨fun _ t op => t = 0 ∧ ∃ data, op = .pushMsg code data, fun _ _ _ _ => True⟩

/-- A `PushMsg` in progress: it has pushed a part of what it pushes. -/
structure PushCall (code : Bytes) (lock : QueueMgr.PushLock) (call : Call) : Prop where
  op : ∃ data, call.op = .pushMsg code data
  result : ∀ now r evs, call.evs = .locked now (.pushLock code) r :: evs → r = lock
  part : call.evs.filterMap Ev.rpush? <+: pushesOf lock call.op

/-- What holds in every state: the calls so far have pushed all they push, in their order, and the
call in progress a part of it. -/
structure PushesInOrder (code : Bytes) (lock : QueueMgr.PushLock) (w : World) : Prop where
  mgr : w.mgr.lockOf code = lock
  others : ∀ t, t ≠ 0 → w.cur t = none
  call : ∀ call, w.cur 0 = some call → PushCall code lock call
  pushes : rpushes w.log = (returned w.log).flatMap (pushesOf lock) ++
    (((w.cur 0).map Call.evs).getD []).filterMap Ev.rpush?

section

variable {code : Bytes} {lock : QueueMgr.PushLock} {w w' : World}

theorem rpushes_did (log : List Event) (t : Tid) (call : Option Call) (ev : Ev) :
    rpushes (log ++ [.did t call ev]) = rpushes log ++ ev.rpush?.toList := by
  unfold rpushes
  rw [List.filterMap_append]
  cases h : ev.rpush? with
  | none => simp [h]
  | some x => simp [h]

@[simp] theorem returned_did (log : List Event) (t : Tid) (call : Option Call) (ev : Ev) :
    returned (log ++ [.did t call ev]) = returned log := by
  simp [returned]

theorem filterMap_rpush_concat (evs : List Ev) (ev : Ev) :
    (evs ++ [ev]).filterMap Ev.rpush? = evs.filterMap Ev.rpush? ++ ev.rpush?.toList := by
  rw [List.filterMap_append]
  cases h : ev.rpush? with
  | none => simp [h]
  | some x => simp [h]

/-- An effect of the thread that pushes. -/
theorem PushesInOrder.did (h : PushesInOrder code lock w) {call : Call} {ev : Ev}
    {redis : Store} {mgr : QueueMgr} {pipe : Tid → List Cmd} {clock : Nat} {used : List Uuid}
    (hcur : w.cur 0 = some call) (hmgr : mgr.lockOf code = lock)
    (hcall : PushCall code lock (call.did ev)) :
    PushesInOrder code lock ({ w with
      mgr := mgr, redis := redis, pipe := pipe, clock := clock, used := used }.did 0 ev) := by
  have hcur' : (World.did { w with
      mgr := mgr, redis := redis, pipe := pipe, clock := clock, used := used } 0 ev).cur 0 =
      some (call.did ev) := by
    simp [World.did, hcur]
  refine ⟨hmgr, ?_, ?_, ?_⟩
  · intro t ht
    simp only [World.did, Function.update_of_ne ht]
    exact h.others t ht
  · intro call' hc
    rw [hcur'] at hc
    cases hc
    exact hcall
  · rw [hcur']
    have hpushes := h.pushes
    rw [hcur] at hpushes
    simp only [Option.map_some, Option.getD_some] at hpushes ⊢
    show rpushes (w.log ++ [.did 0 (w.cur 0) ev]) =
      (returned (w.log ++ [.did 0 (w.cur 0) ev])).flatMap (pushesOf lock) ++
        (call.evs ++ [ev]).filterMap Ev.rpush?
    rw [rpushes_did, returned_did, filterMap_rpush_concat, hpushes, List.append_assoc]

/-- The commands that are left, as events. -/
theorem rpushes_of_rest (r : Reply) (cmds : List Cmd) :
    (cmds.map fun c => Ev.redis c r).filterMap Ev.rpush? = cmds.filterMap rpushOf :=
  rpushes_of_cmds (by simp [Ev.cmd?, Function.comp_def])

/-- Redis executes a command of the call. -/
theorem PushCall.redis {call : Call} {c : Cmd} (h : PushCall code lock call) (hex : Exec call c)
    (r : Reply) : PushCall code lock (call.did (.redis c r)) := by
  obtain ⟨data, hop⟩ := h.op
  cases hex with
  | push code' data' now q cl ty buf evs now' rest _ hcmds =>
    cases hop
    obtain rfl := h.result now _ evs rfl
    refine ⟨⟨data, rfl⟩, ?_, rest.filterMap rpushOf, ?_⟩
    · intro now₁ r₁ evs₁ heq
      cases heq
      rfl
    · have hall : (evs ++ [Ev.redis c r] ++ rest.map fun c => Ev.redis c r).map Ev.cmd? =
          (pushCmds q ty buf data now').map some := by
        rw [hcmds]
        simp [Ev.cmd?, Function.comp_def]
      have hpushed := rpushes_of_cmds hall
      rw [List.filterMap_append, rpushes_of_rest, rpushOf_pushCmds q cl] at hpushed
      exact hpushed
  | _ => cases hop

/-- The locked section. -/
theorem PushesInOrder.locked (h : PushesInOrder code lock w) {call : Call} {s : Section} {e : Env}
    {r : s.Res} (hcur : w.cur 0 = some call) (hl : Locks call s)
    (hlock : w.lock 0 e s = some (r, w')) : PushesInOrder code lock w' := by
  obtain ⟨-, m', hrun, rfl⟩ := World.lock_eq hlock
  obtain ⟨data, hop⟩ := (h.call call hcur).op
  cases hl with
  | pushLock code' data' =>
    cases hop
    simp only [Section.run, Option.some.injEq] at hrun
    have hr : r = lock := by
      rw [← h.mgr, ← w.mgr.pushLock_fst code e.now, hrun]
    have hm : m'.lockOf code = lock := by
      rw [← h.mgr, ← w.mgr.lockOf_pushLock code e.now, hrun]
    refine h.did hcur hm ⟨⟨data, rfl⟩, ?_, List.nil_prefix⟩
    intro now₁ r₁ evs₁ heq
    cases heq
    exact hr
  | _ => cases hop

/-- A call that returns has pushed what it pushes. -/
theorem PushCall.all_of_returns {call : Call} {x : Ret} (h : PushCall code lock call)
    (hret : Returns call x) : call.evs.filterMap Ev.rpush? = pushesOf lock call.op := by
  obtain ⟨data, hop⟩ := h.op
  rcases call with ⟨op, evs⟩
  cases hop
  obtain ⟨hsucc, hfail⟩ := hret
  by_cases hx : x.1 = SUCCESS
  · obtain ⟨now, q, c, ty, buf, now', evs', rfl, hcmds⟩ := hsucc hx
    obtain rfl := h.result now _ evs' rfl
    have hpushed := rpushes_of_cmds hcmds
    rw [rpushOf_pushCmds q c] at hpushed
    exact hpushed
  · obtain ⟨now, r, rfl, hne⟩ := hfail hx
    obtain rfl := h.result now _ [] rfl
    cases r with
    | go q c ty buf => exact absurd rfl (hne q c ty buf)
    | _ => rfl

theorem PushesInOrder.returns (h : PushesInOrder code lock w) {call : Call} {x : Ret}
    (hcur : w.cur 0 = some call) (hret : Returns call x) :
    PushesInOrder code lock { w with
      cur := Function.update w.cur 0 none, log := w.log ++ [.ret 0 (some call) x] } := by
  have hall := (h.call call hcur).all_of_returns hret
  refine ⟨h.mgr, ?_, ?_, ?_⟩
  · intro t ht
    simp only [Function.update_of_ne ht]
    exact h.others t ht
  · intro call' hc
    simp at hc
  · have hpushes := h.pushes
    rw [hcur, Option.map_some, Option.getD_some, hall] at hpushes
    have hlog : rpushes (w.log ++ [.ret 0 (some call) x]) = rpushes w.log := by
      simp [rpushes]
    have hrets : returned (w.log ++ [.ret 0 (some call) x]) = returned w.log ++ [call.op] := by
      simp [returned]
    simp only [Function.update_self, Option.map_none, Option.getD_none, List.filterMap_nil,
      List.append_nil]
    rw [hlog, hrets, hpushes, List.flatMap_append, List.flatMap_singleton]

theorem PushesInOrder.step (h : PushesInOrder code lock w) {t : Tid}
    (hs : Step (onlyPushes code) w t w') : PushesInOrder code lock w' := by
  have hzero : ∀ {call}, w.cur t = some call → t = 0 := by
    intro call hcur
    by_contra ht
    rw [h.others t ht] at hcur
    cases hcur
  cases hs with
  | call op hcur hg =>
    obtain ⟨rfl, data, rfl⟩ := hg
    refine ⟨h.mgr, ?_, ?_, ?_⟩
    · intro t ht
      simp only [Function.update_of_ne ht]
      exact h.others t ht
    · intro call' hc
      simp only [Function.update_self, Option.some.injEq] at hc
      subst hc
      exact ⟨⟨data, rfl⟩, fun _ _ _ heq => (by cases heq), List.nil_prefix⟩
    · have hpushes := h.pushes
      rw [hcur] at hpushes
      simp only [Function.update_self]
      exact hpushes
  | quiet pipe clock => exact ⟨h.mgr, h.others, h.call, h.pushes⟩
  | redis call c e a pipe hcur hex _ _ _ =>
    obtain rfl := hzero hcur
    exact h.did hcur h.mgr ((h.call call hcur).redis hex _)
  | locked call s e hcur hl _ hlock =>
    obtain rfl := hzero hcur
    exact h.locked hcur hl hlock
  | ret call x hcur hret =>
    obtain rfl := hzero hcur
    exact h.returns hcur hret

end

/-! ## The connection, the queues and the worker -/

/-- The request `Decode` makes of a payload, if it does. -/
def request? (parse : Bytes → Option Json) (p : Bytes) : Option Request :=
  match decode parse p with
  | .request req _ => some req
  | _ => none

/-- What the `i`-th `Decode` of a stream answers. -/
def decodes (parse : Bytes → Option Json) (ps : List Bytes) (i : Nat) : Bool :=
  (ps[i]?.bind (request? parse)).isSome

/-- One connection, the dispatcher and a worker. -/
structure Line where
  handler : Netmgr.Handler
  /-- what `recv` will still deliver -/
  chunks : List Bytes
  threads : Netmgr.Threads Request Ret
  server : Conf

namespace Line

inductive Action
  /-- `HandleInput` with the next piece, up to the first call of `ExtractMsgCallBack` -/
  | recv
  /-- a move of `Netmgr.Threads` that the other actions do not stand for -/
  | move (m : Netmgr.Move Request Ret)
  /-- the worker takes a request and calls `QueueMgr` -/
  | get
  /-- an action of that call -/
  | act (e : Env)
  /-- the call has returned -/
  | process

/-- The connection has been accepted. -/
def start (chunks : List Bytes) (m : QueueMgr) (redis : Store) : Line :=
  ⟨.opened, chunks, .start 1, boot m redis⟩

/-- The moves that are not combined with another part. -/
def Alone : Netmgr.Move Request Ret → Bool
  | .receive _ | .get _ | .process _ => false
  | _ => true

def step (parse : Bytes → Option Json) (ans : Nat → Bool) (s : Line) : Action → Option Line
  | .recv =>
    match s.chunks with
    | [] => none
    | chunk :: chunks =>
      if s.handler.closed then none
      else do
        let fuel := (s.handler.recvbuffer.data ++ chunk).length + 1
        let h ← Netmgr.handleInput fuel ans chunk s.handler
        let ps := h.delivered.drop s.handler.delivered.length
        let threads ← s.threads.step Netmgr.Threads.requestsOnly
          (.receive (ps.filterMap (request? parse)))
        some { s with handler := h, chunks := chunks, threads := threads }
  | .move m =>
    if Alone m then
      (s.threads.step Netmgr.Threads.requestsOnly m).map fun threads =>
        { s with threads := threads }
    else none
  | .get =>
    match s.threads.pendingQueue with
    | [] => none
    | r :: _ => do
      let threads ← s.threads.step Netmgr.Threads.requestsOnly (.get 0)
      let server ← (Mq.server .redis).move s.server (.call 0 r.op)
      some { s with threads := threads, server := server }
  | .act e => ((Mq.server .redis).move s.server (.step 0 e)).map fun server =>
      { s with server := server }
  | .process =>
    match s.server.run 0 with
    | none =>
      (s.threads.step Netmgr.Threads.requestsOnly (.process 0)).map fun threads =>
        { s with threads := threads }
    | some _ => none

/-- Fewer than 1000 requests are in flight. -/
def Few (s : Line) (_ : Action) : Prop := s.threads.inFlight < Netmgr.DEFAULT_LIMIT

/-- The condition on a run: besides, a request is put into `ConnectionMgr::_requestQueue` when the
dispatcher has taken all before it. -/
def Prompt (s : Line) (a : Action) : Prop :=
  s.Few a ∧ (a = .move .call → s.threads.requestQueue = [])

/-- The messages are pushed in their order: at any time a first part of the pushes, and all of them
when all requests are processed. -/
def PushedInOrder (targets : List Bytes) (ms : List CStr) (s : Line) : Prop :=
  rpushes s.server.shared.log <+: ms.flatMap (fun m => targets.map fun key => (key, m.bytes)) ∧
  (s.threads.processed.length = ms.length →
    rpushes s.server.shared.log = ms.flatMap fun m => targets.map fun key => (key, m.bytes))

end Line

/-! ### What a step does -/

/-- An action keeps the call a thread is in, and the calls that have returned. -/
theorem exec_called {w w' : World} {e : Env} {a : Act} {r : a.Res}
    (hex : w.exec .redis 0 e a = some (r, w')) :
    (w'.cur 0).map Call.op = (w.cur 0).map Call.op ∧ returned w'.log = returned w.log := by
  have hdid : ∀ (v : World) (ev : Ev), ((v.did 0 ev).cur 0).map Call.op = (v.cur 0).map Call.op ∧
      returned (v.did 0 ev).log = returned v.log := by
    intro v ev
    refine ⟨?_, returned_did _ _ _ _⟩
    simp only [World.did, Function.update_self, Option.map_map]
    rfl
  cases a with
  | append c =>
    cases hex
    exact ⟨rfl, rfl⟩
  | getReply =>
    obtain ⟨c, cs, -, -, rfl⟩ := World.answer_eq hex
    exact hdid _ _
  | command c =>
    obtain ⟨c, cs, -, -, rfl⟩ := World.answer_eq hex
    exact hdid _ _
  | time =>
    cases hex
    exact ⟨rfl, rfl⟩
  | locked s =>
    obtain ⟨-, m', -, rfl⟩ := World.lock_eq hex
    exact hdid _ _

theorem handleInput_delivered {fuel : Nat} {ans : Nat → Bool} {chunk : Bytes}
    {h h' : Netmgr.Handler} (hi : Netmgr.handleInput fuel ans chunk h = some h') :
    h.delivered <+: h'.delivered := by
  unfold Netmgr.handleInput at hi
  obtain ⟨x, -, hx⟩ := Option.map_eq_some_iff.mp hi
  dsimp only at hx
  split at hx
  · cases hx
    exact List.prefix_append _ _
  · split at hx
    · cases hx
      exact List.prefix_append _ _
    · cases hx
      exact List.prefix_append _ _

namespace Line

/-- A stream of `SendMsgRequest`s with one code, and how it is cut. -/
structure Stream (parse : Bytes → Option Json) (ps : List Bytes) (code : CStr) (ms : List CStr)
    (chunks : List Bytes) : Prop where
  nonempty : ∀ p ∈ ps, p ≠ []
  fits : ∀ p ∈ ps, (Netmgr.frame p).length + Netmgr.RECV_SIZE < 2 ^ 31
  sends : ps.map (request? parse) = ms.map fun m => some (.sendMsg code m)
  sizes : ∀ chunk ∈ chunks, chunk.length ≤ Netmgr.RECV_SIZE
  cut : chunks.flatten = Netmgr.stream ps

section

variable {parse : Bytes → Option Json} {ps chunks : List Bytes} {code : CStr} {ms : List CStr}
variable {m : QueueMgr} {redis : Store} {s s' : Line} {a : Action}

/-- What holds along the run. -/
structure Inv (parse : Bytes → Option Json) (ps : List Bytes) (code : CStr) (c₀ : Conf)
    (s : Line) : Prop where
  inTurn : s.threads.InTurn
  received : ∃ l, l ++ s.chunks.flatten = Netmgr.stream ps ∧
    Netmgr.Received (decodes parse ps) l s.handler
  sizes : ∀ chunk ∈ s.chunks, chunk.length ≤ Netmgr.RECV_SIZE
  passed : s.threads.called ++ s.threads.io.rest = s.handler.delivered.filterMap (request? parse)
  server : (Mq.server .redis).Reach (onlyPushes code.bytes) c₀ s.server
  running : (s.server.shared.cur 0).map Call.op = (s.server.run 0).map Prod.fst
  calls : called s.server.shared = (s.threads.processed ++ s.threads.busy).map Request.op
  idle : s.threads.busy = [] → s.server.run 0 = none

theorem Stream.inv_start (h : Stream parse ps code ms chunks) :
    Inv parse ps code (boot m redis) (start chunks m redis) :=
  ⟨Netmgr.Threads.inTurn_start, ⟨[], h.cut, Netmgr.received_opened _⟩, h.sizes, rfl, .init, rfl,
    rfl,
    fun _ => rfl⟩

theorem Stream.requests (h : Stream parse ps code ms chunks) :
    ps.filterMap (request? parse) = ms.map (Request.sendMsg code) := by
  have hmap : ps.filterMap (request? parse) = (ps.map (request? parse)).filterMap id := by
    rw [List.filterMap_map]
    rfl
  rw [hmap, h.sends, List.filterMap_map]
  simp

/-- Every payload is a `SendMsgRequest`. -/
theorem Stream.decodes (h : Stream parse ps code ms chunks) {i : Nat} (hi : i < ps.length) :
    decodes parse ps i = true := by
  have hlen := congrArg List.length h.sends
  rw [List.length_map, List.length_map] at hlen
  have hget := congrArg (fun l => l[i]?) h.sends
  simp only [List.getElem?_map] at hget
  unfold Mq.decodes
  rw [List.getElem?_eq_getElem hi] at hget ⊢
  rw [List.getElem?_eq_getElem (by omega)] at hget
  simp only [Option.map_some, Option.some.injEq] at hget
  simp [hget]

/-- After a part of the stream: the payloads of the complete frames are delivered, and less than a
frame is in the buffer. -/
theorem Stream.delivered (h : Stream parse ps code ms chunks) {l rest : Bytes}
    {hd : Netmgr.Handler} (hl : l ++ rest = Netmgr.stream ps)
    (hr : Netmgr.Received (Mq.decodes parse ps) l hd) :
    hd.closed = false ∧ hd.delivered <+: ps ∧
      (hd.recvbuffer.data = [] ∨
        ∃ p ∈ ps, hd.recvbuffer.data.length < (Netmgr.frame p).length) := by
  obtain ⟨bs, r, hc, -, hdel, hcl, hdata⟩ := hr
  obtain ⟨bs', rfl, -, -, hnext⟩ := Netmgr.cuts_take_stream h.nonempty
    (fun p hp => by have := h.fits p hp; omega) hl hc
  have hall : Netmgr.accepted (Mq.decodes parse (bs ++ bs')) 0 bs = bs := by
    refine Netmgr.accepted_of_ok fun i hi => ?_
    rw [Nat.zero_add]
    exact h.decodes (by rw [List.length_append]; omega)
  have hopen := hcl.mpr hall
  refine ⟨hopen, ?_, ?_⟩
  · rw [hdel, hall]
    exact List.prefix_append _ _
  · rw [hdata hopen]
    rcases hnext with ⟨-, rfl⟩ | ⟨p, bs'', rfl, hlt⟩
    · exact .inl rfl
    · exact .inr ⟨p, by simp, hlt⟩

/-- What is passed on is a first part of the requests of the stream. -/
theorem Stream.passed (h : Stream parse ps code ms chunks)
    (hi : Inv parse ps code (boot m redis) s) :
    s.threads.called <+: ms.map (Request.sendMsg code) := by
  obtain ⟨l, hl, hr⟩ := hi.received
  obtain ⟨-, ⟨rest, hrest⟩, -⟩ := h.delivered hl hr
  refine ⟨s.threads.io.rest ++ rest.filterMap (request? parse), ?_⟩
  rw [← List.append_assoc, hi.passed, ← List.filterMap_append, hrest, h.requests]

theorem Inv.recv (hi : Inv parse ps code (boot m redis) s) (h : Stream parse ps code ms chunks)
    (hg : s.Prompt .recv) (hs : s.step parse (Mq.decodes parse ps) .recv = some s') :
    Inv parse ps code (boot m redis) s' := by
  obtain ⟨l, hl, hr⟩ := hi.received
  obtain ⟨hopen, -, hshort⟩ := h.delivered hl hr
  simp only [step] at hs
  split at hs
  · cases hs
  · rename_i chunk rest hchunks
    rw [hopen, if_neg Bool.false_ne_true] at hs
    obtain ⟨hd, hinput, hs⟩ := Option.bind_eq_some_iff.mp hs
    obtain ⟨threads, hthreads, hs⟩ := Option.bind_eq_some_iff.mp hs
    cases hs
    have hsize : chunk.length ≤ Netmgr.RECV_SIZE := hi.sizes chunk (by simp [hchunks])
    have hbuf : (s.handler.recvbuffer.data ++ chunk).length < 2 ^ 31 := by
      rw [List.length_append]
      have hrecv : Netmgr.RECV_SIZE = 16384 := rfl
      rcases hshort with hnil | ⟨p, hp, hlt⟩
      · rw [hnil, List.length_nil]
        omega
      · have := h.fits p hp
        omega
    rw [hchunks, List.flatten_cons, ← List.append_assoc] at hl
    obtain ⟨hd', hinput', hr'⟩ := hr.step hopen h.nonempty
      (fun p hp => by have := h.fits p hp; omega) hl hsize hbuf (Nat.lt_succ_self _)
    rw [hinput] at hinput'
    cases hinput'
    have hturn : threads.InTurn :=
      hi.inTurn.step ⟨hg.1, fun hcall => by cases hcall⟩ hthreads
    cases Netmgr.Threads.steps_of_step hthreads with
    | receive hio rs =>
      have hpassed := hi.passed
      rw [hio] at hpassed
      obtain ⟨new, hnew⟩ := handleInput_delivered hinput
      refine ⟨hturn, ⟨_, hl, hr'⟩, ?_, ?_, hi.server, hi.running, hi.calls, hi.idle⟩
      · intro chunk' hc
        exact hi.sizes chunk' (by rw [hchunks]; exact List.mem_cons_of_mem _ hc)
      · show s.threads.called ++ (hd.delivered.drop _).filterMap (request? parse) = _
        rw [← hnew, List.drop_left, List.filterMap_append, ← hpassed]
        simp [Netmgr.Io.rest]

theorem Inv.move (hi : Inv parse ps code (boot m redis) s) {mv : Netmgr.Move Request Ret}
    (hg : s.Prompt (.move mv)) (hs : s.step parse (Mq.decodes parse ps) (.move mv) = some s') :
    Inv parse ps code (boot m redis) s' := by
  simp only [step] at hs
  split at hs
  · rename_i halone
    obtain ⟨threads, hthreads, rfl⟩ := Option.map_eq_some_iff.mp hs
    have hsteps := Netmgr.Threads.steps_of_step hthreads
    have hpassed := hsteps.passed (by rintro rs rfl; cases halone)
    obtain ⟨hprocessed, hbusy⟩ :=
      hsteps.worked (by rintro t rfl; cases halone) (by rintro t rfl; cases halone)
    refine ⟨hi.inTurn.step ⟨hg.1, fun hcall => hg.2 (by rw [hcall])⟩ hthreads, hi.received,
      hi.sizes,
      ?_, hi.server, hi.running, ?_, ?_⟩
    · exact hpassed.trans hi.passed
    · simp only [hprocessed, hbusy]
      exact hi.calls
    · simp only [hbusy]
      exact hi.idle
  · cases hs

theorem Inv.get (hi : Inv parse ps code (boot m redis) s) (h : Stream parse ps code ms chunks)
    (hg : s.Prompt .get) (hs : s.step parse (Mq.decodes parse ps) .get = some s') :
    Inv parse ps code (boot m redis) s' := by
  simp only [step] at hs
  split at hs
  · cases hs
  · rename_i r pending hpending
    obtain ⟨threads, hthreads, hs⟩ := Option.bind_eq_some_iff.mp hs
    obtain ⟨conf, hmove, hs⟩ := Option.bind_eq_some_iff.mp hs
    cases hs
    have hturn : threads.InTurn :=
      hi.inTurn.step ⟨hg.1, fun hcall => by cases hcall⟩ hthreads
    have hmem : r ∈ s.threads.called := by
      rw [hi.inTurn.order, hpending]
      simp
    obtain ⟨msg, -, rfl⟩ := List.mem_map.mp ((h.passed hi).subset hmem)
    simp only [Sys.move] at hmove
    split at hmove
    · rename_i hidle
      cases hmove
      have hcur : s.server.shared.cur 0 = none := by
        have hrunning := hi.running
        rw [hidle] at hrunning
        exact Option.map_eq_none_iff.mp hrunning
      have hcalls := hi.calls
      cases Netmgr.Threads.steps_of_step hthreads with
      | @get t r' rest hw hq =>
        rw [hpending] at hq
        cases hq
        obtain ⟨hworkers, -⟩ := hi.inTurn.workers_eq hw
        have hbusy : (Netmgr.Threads.busy { s.threads.goes 0 (.processing (.sendMsg code msg)) with
            pendingQueue := pending }) = [Request.sendMsg code msg] :=
          Netmgr.Threads.busy_goes_one hworkers (.processing (Request.sendMsg code msg))
        refine ⟨hturn, hi.received, hi.sizes, hi.passed,
          .call 0 _ hi.server hidle ⟨rfl, msg.bytes, rfl⟩, ?_, ?_, ?_⟩
        · simp [Mq.server]
        · rw [Netmgr.Threads.busy_of_one hworkers] at hcalls
          simp only [called, Mq.server, hcur, hbusy] at hcalls ⊢
          simpa [Netmgr.Worker.busy, Netmgr.Threads.goes] using hcalls
        · rw [hbusy]
          intro hnil
          cases hnil
    · cases hmove

theorem Inv.act (hi : Inv parse ps code (boot m redis) s) {e : Env}
    (hs : s.step parse (Mq.decodes parse ps) (.act e) = some s') :
    Inv parse ps code (boot m redis) s' := by
  obtain ⟨conf, hmove, rfl⟩ := Option.map_eq_some_iff.mp hs
  have hrunning := hi.running
  have hcalls := hi.calls
  simp only [Sys.move] at hmove
  split at hmove
  · cases hmove
  · rename_i op x hrun
    cases hmove
    rw [hrun] at hrunning
    obtain ⟨call, hcur, hop⟩ := Option.map_eq_some_iff.mp hrunning
    refine ⟨hi.inTurn, hi.received, hi.sizes, hi.passed, .ret 0 hi.server hrun, ?_, ?_, ?_⟩
    · simp [Mq.server]
    · rw [← hcalls]
      simp [called, Mq.server, returned, hcur]
    · intro _
      simp
  · rename_i op act k hrun
    split at hmove
    · cases hmove
    · rename_i r w hex
      cases hmove
      obtain ⟨hcur, hreturned⟩ := exec_called hex
      refine ⟨hi.inTurn, hi.received, hi.sizes, hi.passed, .act 0 e hi.server hrun trivial hex,
        ?_, ?_, ?_⟩
      · rw [hrun] at hrunning
        simpa [hcur] using hrunning
      · rw [← hcalls]
        simp only [called, hcur, hreturned]
      · intro hbusy
        rw [hi.idle hbusy] at hrun
        cases hrun

theorem Inv.process (hi : Inv parse ps code (boot m redis) s) (hg : s.Prompt .process)
    (hs : s.step parse (Mq.decodes parse ps) .process = some s') :
    Inv parse ps code (boot m redis) s' := by
  simp only [step] at hs
  split at hs
  · rename_i hidle
    obtain ⟨threads, hthreads, rfl⟩ := Option.map_eq_some_iff.mp hs
    have hturn : threads.InTurn :=
      hi.inTurn.step ⟨hg.1, fun hcall => by cases hcall⟩ hthreads
    have hcalls := hi.calls
    cases Netmgr.Threads.steps_of_step hthreads with
    | exits _ hk | ignored _ hk => cases hk
    | @process t r hw _ =>
      obtain ⟨hworkers, -⟩ := hi.inTurn.workers_eq hw
      have hbusy : (Netmgr.Threads.busy { s.threads.goes 0 (.answering r) with
          processed := s.threads.processed ++ [r] }) = [] :=
        Netmgr.Threads.busy_goes_one hworkers (.answering r)
      refine ⟨hturn, hi.received, hi.sizes, hi.passed, hi.server, hi.running, ?_, fun _ => hidle⟩
      rw [Netmgr.Threads.busy_of_one hworkers] at hcalls
      rw [hbusy, List.append_nil]
      exact hcalls
  · cases hs

theorem Inv.step (hi : Inv parse ps code (boot m redis) s) (h : Stream parse ps code ms chunks)
    (hg : s.Prompt a) (hs : s.step parse (Mq.decodes parse ps) a = some s') :
    Inv parse ps code (boot m redis) s' := by
  cases a with
  | recv => exact hi.recv h hg hs
  | move mv => exact hi.move hg hs
  | get => exact hi.get h hg hs
  | act e => exact hi.act hs
  | process => exact hi.process hg hs

/-! ### The order -/

/-- The pushes so far are a first part of those of the calls made. -/
theorem rpushes_prefix {lock : QueueMgr.PushLock} {w : World}
    (h : PushesInOrder code.bytes lock w) :
    rpushes w.log <+: (called w).flatMap (pushesOf lock) := by
  rw [h.pushes]
  unfold called
  cases hcur : w.cur 0 with
  | none => simp
  | some call =>
    obtain ⟨rest, hrest⟩ := (h.call call hcur).part
    refine ⟨rest, ?_⟩
    simp only [Option.map_some, Option.getD_some, Option.toList_some, List.flatMap_append,
      List.flatMap_singleton]
    rw [List.append_assoc, hrest]

theorem pushes_of_sends (lock : QueueMgr.PushLock) (code : CStr) (ms : List CStr) :
    ((ms.map (Request.sendMsg code)).map Request.op).flatMap (pushesOf lock) =
      ms.flatMap fun m => lock.targets.map fun key => (key, m.bytes) := by
  rw [List.map_map, List.flatMap_map]
  rfl

/-- **The messages are pushed in the order of their frames** in a run in which the dispatcher takes
each request before the next is put. -/
theorem pushed_in_order (h : Stream parse ps code ms chunks) (hst : WellTyped redis)
    (hr : Machine.Reach (Line.step parse (Mq.decodes parse ps)) Prompt (start chunks m redis) s) :
    s.PushedInOrder (m.lockOf code.bytes).targets ms := by
  have hi : Inv parse ps code (boot m redis) s := hr.inv (I := Inv parse ps code (boot m redis))
    h.inv_start (fun hi hg hs => hi.step h hg hs)
  obtain ⟨hp, -, hidle⟩ := reach_protocol (I := PushesInOrder code.bytes (m.lockOf code.bytes))
    (boot_boot m redis) hst ⟨rfl, fun _ _ => rfl, fun _ hc => (by cases hc), rfl⟩
    (fun w t w' hw _ hs => hw.step hs) hi.server
  have hworked : s.threads.processed ++ s.threads.busy <+: ms.map (Request.sendMsg code) := by
    refine List.IsPrefix.trans ?_ (h.passed hi)
    rw [hi.inTurn.order, ← List.append_assoc]
    exact List.prefix_append _ _
  have hprefix := rpushes_prefix hp
  rw [hi.calls] at hprefix
  refine ⟨?_, fun hall => ?_⟩
  · obtain ⟨rest, hrest⟩ := hworked
    rw [← pushes_of_sends, ← hrest, List.map_append, List.flatMap_append]
    exact hprefix.trans (List.prefix_append _ _)
  · -- all are processed, so the worker is in no call
    have hlen := hworked.length_le
    rw [List.length_append, List.length_map] at hlen
    have hbusy : s.threads.busy = [] := List.length_eq_zero_iff.mp (by omega)
    rw [hbusy, List.append_nil] at hworked
    have hprocessed : s.threads.processed = ms.map (Request.sendMsg code) :=
      hworked.eq_of_length (by rw [List.length_map, hall])
    have hcur := hidle 0 (hi.idle hbusy)
    have hcalls := hi.calls
    rw [hbusy, List.append_nil, hprocessed, called, hcur] at hcalls
    simp only [Option.map_none, Option.toList_none, List.append_nil] at hcalls
    rw [hp.pushes, hcur, hcalls, pushes_of_sends]
    simp

/-! ### Two messages -/

/-- The code of the session below. -/
def sendCode : CStr := ⟨hexText (List.replicate 16 0), by decide⟩

def msgA : CStr := ⟨ascii "a", by decide⟩
def msgB : CStr := ⟨ascii "b", by decide⟩

/-- The body of a `SendMsgRequest`. -/
def sendText (msg : CStr) : Bytes :=
  ascii "\x7b\"method\":\"SendMsg\",\"params\":\x7b\"msgData\":\"" ++ msg.bytes ++
    ascii "\",\"msgQueueCode\":\"" ++ sendCode.bytes ++ ascii "\"\x7d,\"id\":1\x7d"

/-- Its value. -/
def sendValue (msg : CStr) : Json :=
  .object [(key "method", .string (key "SendMsg")),
    (key "params", .object [(key "msgData", .string msg), (key "msgQueueCode", .string sendCode)]),
    (key "id", .int 1)]

/-- `Json::Reader::parse` on the two bodies. -/
def parseTwo (p : Bytes) : Option Json :=
  if p = sendText msgA then some (sendValue msgA)
  else if p = sendText msgB then some (sendValue msgB)
  else none

/-- A manager with the session of a publisher of the `PEER2PEER` queue `q`. -/
def sender : QueueMgr :=
  ((QueueMgr.init 1000).openLock 5 (.ofByte 0)
    ⟨⟨ascii "q", noNul_q⟩, PEER2PEER, 0, 0, .publisher, 1, ⟨ascii "c", noNul_c⟩⟩).2

set_option maxRecDepth 2000 in
theorem stream_two : Stream parseTwo [sendText msgA, sendText msgB] sendCode [msgA, msgB]
    [Netmgr.stream [sendText msgA, sendText msgB]] := by
  refine ⟨by decide, by decide, by decide, by decide, by simp⟩

/-- The worker's call, from the take on. -/
def work : List Action :=
  .get :: List.replicate 7 (.act ⟨6, .ofByte 1, none⟩) ++ [.process]

instance (s : Line) (a : Action) : Decidable (s.Few a) := inferInstanceAs (Decidable (_ < _))

/-- A test for `Prompt`. -/
def prompt (s : Line) : Action → Bool
  | .move .call => s.threads.inFlight < Netmgr.DEFAULT_LIMIT && s.threads.requestQueue.isEmpty
  | _ => s.threads.inFlight < Netmgr.DEFAULT_LIMIT

theorem prompt_spec (s : Line) (a : Action) (h : s.prompt a = true) : s.Prompt a := by
  unfold prompt at h
  split at h
  · obtain ⟨hfew, hempty⟩ := Bool.and_eq_true_iff.mp h
    exact ⟨of_decide_eq_true hfew, fun _ => List.isEmpty_iff.mp hempty⟩
  · rename_i hne
    exact ⟨of_decide_eq_true h, fun hcall => absurd hcall hne⟩

/-- What a run on the two messages pushes. -/
def pushesAfter (ok : Line → Action → Bool) (actions : List Action) :
    Option (List (Bytes × Bytes)) :=
  (Machine.run (Line.step parseTwo (Mq.decodes parseTwo [sendText msgA, sendText msgB])) ok actions
    (start [Netmgr.stream [sendText msgA, sendText msgB]] sender fun _ => none)).map
      fun s => rpushes s.server.shared.log

/-- Both requests are put before the dispatcher takes the first one, and the stack hands out the
second; or each is taken before the next one is put. -/
theorem pushesAfter_two :
    pushesAfter (fun s a => decide (s.Few a))
      ([.recv, .move .call, .move .call, .move .extracted, .move .take, .move .dispatch] ++ work) =
        some [(getQueueMsgName (ascii "q"), ascii "b")] ∧
    pushesAfter prompt
      ([.recv, .move .call, .move .take, .move .call, .move .extracted, .move .dispatch,
        .move .take, .move .dispatch] ++ work ++
        [.move (.answer 0 (0, none)), .move (.notify 0 true)] ++ work) =
        some [(getQueueMsgName (ascii "q"), ascii "a"),
          (getQueueMsgName (ascii "q"), ascii "b")] := by
  decide +kernel

theorem pushed_out_of_order : ¬ ∀ (parse : Bytes → Option Json) (ps : List Bytes) (code : CStr)
    (ms : List CStr) (chunks : List Bytes) (m : QueueMgr) (redis : Store) (s : Line),
    Stream parse ps code ms chunks → WellTyped redis →
    Machine.Reach (Line.step parse (Mq.decodes parse ps)) Few (start chunks m redis) s →
      s.PushedInOrder (m.lockOf code.bytes).targets ms := by
  intro h
  obtain ⟨s, hrun, hs⟩ := Option.map_eq_some_iff.mp pushesAfter_two.1
  have hreach := Machine.Reach.init.run (fun _ _ => of_decide_eq_true) _ hrun
  have horder := (h _ _ _ _ _ _ _ s stream_two wellTyped_empty hreach).1
  rw [hs] at horder
  exact absurd horder (by decide)

theorem pushed_in_order_two : ∃ s : Line,
    s.PushedInOrder [getQueueMsgName (ascii "q")] [msgA, msgB] ∧ rpushes s.server.shared.log =
      [(getQueueMsgName (ascii "q"), ascii "a"), (getQueueMsgName (ascii "q"), ascii "b")] := by
  obtain ⟨s, hrun, hs⟩ := Option.map_eq_some_iff.mp pushesAfter_two.2
  have hreach := Machine.Reach.init.run prompt_spec _ hrun
  have htargets : (sender.lockOf sendCode.bytes).targets = [getQueueMsgName (ascii "q")] := by
    decide
  rw [← htargets]
  exact ⟨s, pushed_in_order stream_two wellTyped_empty hreach, hs⟩

end

end Line

end Domq.Mq
