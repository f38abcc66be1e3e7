import Domq.Mq.Talk

/-!
# `OpenQueue` and `PopMsg` without a pipeline

`CreatePublisher`, `CreateSubscriber` and `PopMsg` append commands in pairs and read the replies one
by one, on a dozen paths. What they are for is said here a second time, without a pipeline: every
command is a call that returns its own reply (`Talk.direct`, where nothing can be appended and
nothing be read), and the reply is taken apart by its type. These definitions are not translated
from the source.

* `Agrees p q`: on a connection without unread replies, `p` with its pipeline does what `q` does
  without one: the same commands in the same order, the same result, the same state of the manager.
* `openQueue_agrees`, `popMsg_agrees`, and `pipeline_empty`: for every peer that does not fail they
  return, with every reply read, and each was read as the answer to the command that caused it.
-/

namespace Domq.Mq

open Domq.Lib Domq.Redis

namespace Talk

variable {π : Type}

/-- A thread without a pipeline: a command is a call that returns its own answer. -/
def direct (P : Peer π) (clock : Nat → Nat) (uuid : Uuid) (w : Talk π) :
    (a : Act) → Option (a.Res × Talk π)
  | .append _ => none
  | .getReply => none
  | .command c => some ((P c w.peer).1, { w.issue P c with taken := w.taken + 1 })
  | .time => w.exec P clock uuid .time
  | .locked s => w.exec P clock uuid (.locked s)

end Talk

/-! ## The procedures without a pipeline -/

/-- `CreatePublisher`, without a pipeline. -/
def createPublisherDirect (a : OpenArgs) : QProg Int := do
  match ← command (.sismember allQueueName a.msgQueueName.bytes) with
  | some (.integer n) =>
    if n = 0 then
      if a.create &&& 1 ≠ 0 then
        let _ ← command (.sadd allQueueName a.msgQueueName.bytes)
        let now ← time
        let _ ← command (.hmset (getQueueMetaName a.msgQueueName.bytes) (metaFields a now))
        return SUCCESS
      else return NO_EXIST
    else return SUCCESS
  | some .nil => return NO_EXIST
  | _ => return -1

/-- The last part of `CreateSubscriber`, the replies taken apart by their types. -/
def registerSubscriberDirect (a : OpenArgs) : QProg Int := do
  match ← command (.hexists (getSubQueueMetaName a.msgQueueName.bytes) a.clientName.bytes) with
  | some (.integer n) =>
    if n = 1 then return SUCCESS
    else
      let now ← time
      match ← command (.hmset (getSubQueueMetaName a.msgQueueName.bytes)
        [(a.clientName.bytes, fmtInt now)]) with
      | some (.status _) =>
        locked (.addClient a.msgQueueName a.clientName)
        return SUCCESS
      | some .nil => return NO_EXIST
      | _ => return -1
  | some .nil => return NO_EXIST
  | _ => return -1

/-- `CreateSubscriber`, without a pipeline. -/
def createSubscriberDirect (a : OpenArgs) : QProg Int := do
  let isQueue ← command (.sismember allQueueName a.msgQueueName.bytes)
  let metadata ← command (.hgetall (getQueueMetaName a.msgQueueName.bytes))
  match isQueue, metadata with
  | some (.integer n), some metadata =>
    if n = 1 then
      match metadata with
      | .array elements =>
        match getQueueValue Queue.empty (.array elements) with
        | none => return INTERNAL_ERROR
        | some queue =>
          if queue.option.msgType ≠ a.msgType then return MSGTYPE_ERROR
          if a.msgType = PEER2PEER then return SUCCESS
          registerSubscriberDirect a
      | .nil => return NO_EXIST
      | _ => return -1
    else return NO_EXIST
  | some .nil, _ => return NO_EXIST
  | _, _ => return -1

/-- `OpenQueue`, without a pipeline. -/
def openQueueDirect (a : OpenArgs) : QProg (Int × Option Bytes) := do
  let ret ←
    match a.role with
    | .publisher => createPublisherDirect a
    | .subscriber => createSubscriberDirect a
    | .other => pure 0
  if ret = SUCCESS then
    let code ← locked (.openLock a)
    return (ret, some code)
  else return (ret, none)

/-- The keys `PopMsg` uses: of the hash, of the list, and of the field. -/
def popKeys (queueName clientName : CStr) (msgType : Int32) : Bytes × Bytes × Bytes :=
  if msgType = SUB2PUB then
    (getSubQueueMetaName queueName.bytes, getQueueSubName queueName.bytes clientName.bytes,
      clientName.bytes)
  else
    (getQueueMetaName queueName.bytes, getQueueMsgName queueName.bytes, ascii "lastvisit")

/-- `PopMsg`, without a pipeline. -/
def popMsgDirect (msgQueueCode : Bytes) : QProg (Int × Option Bytes) := do
  match ← locked (.popLock msgQueueCode) with
  | .fail ret => return (ret, none)
  | .go queueName clientName msgType =>
    let now ← time
    let popped ← command (.lpop (popKeys queueName clientName msgType).2.1)
    let visited ← command (.hset (popKeys queueName clientName msgType).1
      (popKeys queueName clientName msgType).2.2 (fmtInt (Int32.ofNat now).toInt))
    match popped with
    | some (.string data) =>
      match visited with
      | some (.integer _) =>
        if (unserialize data).1 < 0 then return (INTERNAL_ERROR, some data)
        return (0, some (unserialize data).2)
      | some .nil => return (NO_EXIST, none)
      | _ => return (-1, none)
    | some .nil => return (NO_EXIST, none)
    | _ => return (-1, none)

/-! ## Agreement -/

section

variable {π α : Type} (P : Cmd → π → Reply × π) (clock : Nat → Nat) (uuid : Uuid)

/-- On a connection without unread replies, `p` does what `q` does without a pipeline, and returns
with every reply read. -/
def Agrees (p q : QProg α) : Prop :=
  ∀ w : Talk π, w.Idle → ∃ x w', p.eval (Talk.exec (answering P) clock uuid) w = some (x, w') ∧
    q.eval (Talk.direct (answering P) clock uuid) w = some (x, w') ∧ w'.Idle

variable {P clock uuid}

theorem agrees_ret (x : α) : Agrees P clock uuid (Prog.ret x) (Prog.ret x) :=
  fun w hw => ⟨x, w, rfl, rfl, hw⟩

theorem agrees_command {c : Cmd} {k k' : Option Reply → QProg α}
    (h : ∀ r, Agrees P clock uuid (k (some r)) (k' (some r))) :
    Agrees P clock uuid (command c >>= k) (command c >>= k') := by
  intro w hw
  rw [Talk.eval_command, Talk.command_idle hw]
  exact h _ _ (hw.issue c)

theorem agrees_time {k k' : Nat → QProg α} (h : ∀ now, Agrees P clock uuid (k now) (k' now)) :
    Agrees P clock uuid (time >>= k) (time >>= k') := fun w hw => h _ { w with ticks := _ } hw

theorem agrees_locked {s : Section} {k k' : s.Res → QProg α}
    (hs : ∀ now uuid m, ∃ rm, s.run now uuid m = some rm)
    (h : ∀ r, Agrees P clock uuid (k r) (k' r)) :
    Agrees P clock uuid (locked s >>= k) (locked s >>= k') := by
  intro w hw
  obtain ⟨⟨r, m⟩, hrun⟩ := hs (clock w.ticks) uuid w.mgr
  have hd : (locked s >>= k').eval (Talk.direct (answering P) clock uuid) w =
      (k' r).eval (Talk.direct (answering P) clock uuid)
        { w with mgr := m, ticks := w.ticks + 1 } := by
    rw [locked_bind, Prog.eval_act]
    show ((s.run (clock w.ticks) uuid w.mgr).map _).bind _ = _
    rw [hrun]
    rfl
  rw [Talk.eval_locked k hrun, hd]
  exact h r _ hw

/-- A procedure that agrees, followed by one that agrees. -/
theorem agrees_bind {β : Type} {p q : QProg β} {k k' : β → QProg α} (hp : Agrees P clock uuid p q)
    (hk : ∀ x, Agrees P clock uuid (k x) (k' x)) :
    Agrees P clock uuid (p >>= k) (q >>= k') := by
  intro w hw
  obtain ⟨x, w₁, he, hd, hw₁⟩ := hp w hw
  rw [Prog.eval_bind, Prog.eval_bind, he, hd]
  exact hk x w₁ hw₁

/-- A procedure that agrees with a direct one leaves no reply unread. -/
theorem Agrees.idle {p q : QProg α} (h : Agrees P clock uuid p q) {w w' : Talk π} {x : α}
    (he : p.eval (Talk.exec (answering P) clock uuid) w = some (x, w')) (hw : w.Idle) :
    w'.Idle := by
  obtain ⟨x₁, w₁, he₁, -, hidle⟩ := h w hw
  cases he.symm.trans he₁
  exact hidle

theorem Talk.Idle.unread_pair {w : Talk π} (hw : w.Idle) (c₁ c₂ : Cmd) (ticks : Nat) :
    (Talk.issue (answering P) c₂
      { w.issue (answering P) c₁ with ticks := ticks }).unread =
      [(c₁, some (P c₁ w.peer).1), (c₂, some (P c₂ (P c₁ w.peer).2).1)] := by
  show ((w.log ++ [_]) ++ [_]).drop w.taken = _
  rw [hw, List.append_assoc]
  exact List.drop_left

section Pair

variable {k : Option Reply → QProg α} {g : Reply → Option Reply → QProg α}
  {d : Option Reply → Option Reply → QProg α}

/-- Two commands appended, and both replies read. -/
theorem agrees_pair {c₁ c₂ : Cmd} (hk : ∀ r₁, k (some r₁) = getReply >>= g r₁)
    (h : ∀ r₁ r₂, Agrees P clock uuid (g r₁ (some r₂)) (d (some r₁) (some r₂))) :
    Agrees P clock uuid
      (append c₁ >>= fun _ => append c₂ >>= fun _ => getReply >>= k)
      (command c₁ >>= fun r₁ => command c₂ >>= fun r₂ => d r₁ r₂) := by
  intro w hw
  have hu : (Talk.issue _ c₂ (w.issue _ c₁)).unread = _ := hw.unread_pair (P := P) c₁ c₂ w.ticks
  rw [Talk.eval_append, Talk.eval_append, Talk.eval_getReply_unread _ hu, hk,
    Talk.eval_getReply_unread _ (Talk.unread_take hu)]
  exact h _ _ _ ((hw.issue c₁).issue c₂)

/-- The same with a look at the clock between the two. -/
theorem agrees_pair_time {c₁ : Cmd} {c₂ : Nat → Cmd}
    (hk : ∀ r₁, k (some r₁) = getReply >>= g r₁)
    (h : ∀ r₁ r₂, Agrees P clock uuid (g r₁ (some r₂)) (d (some r₁) (some r₂))) :
    Agrees P clock uuid
      (append c₁ >>= fun _ => time >>= fun now => append (c₂ now) >>= fun _ => getReply >>= k)
      (command c₁ >>= fun r₁ => time >>= fun now => command (c₂ now) >>= fun r₂ => d r₁ r₂) := by
  intro w hw
  have hu := hw.unread_pair (P := P) c₁ (c₂ (clock w.ticks)) (w.ticks + 1)
  rw [Talk.eval_append, Talk.eval_time, Talk.eval_append]
  show ∃ x w', (getReply >>= k).eval _ (Talk.issue (answering P) (c₂ (clock w.ticks))
    { w.issue (answering P) c₁ with ticks := w.ticks + 1 }) = _ ∧ _
  rw [Talk.eval_getReply_unread _ hu, hk, Talk.eval_getReply_unread _ (Talk.unread_take hu)]
  exact h _ _ _ (Talk.Idle.issue (w := { Talk.issue _ c₁ w with
    taken := w.taken + 1, ticks := w.ticks + 1 }) (hw.issue c₁) (c₂ (clock w.ticks)))

end Pair

/-! ## The procedures agree -/

/-- `CreatePublisher` from the reply to its `HMSET` on, whatever the reply to its `SADD` was. -/
def afterWrites (_ : Reply) : Option Reply → QProg Int
  | none => return INTERNAL_ERROR
  | some _ => return SUCCESS

theorem createPublisher_agrees (a : OpenArgs) :
    Agrees P clock uuid (createPublisher a) (createPublisherDirect a) := by
  unfold createPublisher createPublisherDirect
  refine agrees_command fun r => ?_
  cases r with
  | integer n =>
    have hret : ¬ checkReply (some (.integer n)) .integer (-1) true ≠ 0 := fun h => h rfl
    have hint : ((some (Reply.integer n)).map Reply.toInt).getD 0 = n := rfl
    by_cases hn : n = 0
    · by_cases hc : a.create &&& 1 ≠ 0
      · simp only [if_neg hret, if_pos (hint.trans hn), if_pos hn, if_pos hc]
        exact agrees_pair_time (g := afterWrites) (fun _ => rfl) fun _ _ => agrees_ret _
      · simp only [if_neg hret, if_pos (hint.trans hn), if_pos hn, if_neg hc]
        exact agrees_ret _
    · simp only [if_neg hret, if_neg (fun h => hn (hint.symm.trans h)), if_neg hn]
      exact agrees_ret _
  | _ => exact agrees_ret _

theorem registerSubscriber_agrees (a : OpenArgs) :
    Agrees P clock uuid (registerSubscriber a) (registerSubscriberDirect a) := by
  unfold registerSubscriber registerSubscriberDirect
  refine agrees_command fun r => ?_
  cases r with
  | integer n =>
    have hret : ¬ checkReply (some (.integer n)) .integer (-1) true ≠ 0 := fun h => h rfl
    have hint : ((some (Reply.integer n)).map Reply.toInt).getD 0 = n := rfl
    by_cases hn : n = 1
    · simp only [if_neg hret, if_pos (hint.trans hn), if_pos hn]
      exact agrees_ret _
    · simp only [if_neg hret, if_neg (fun h => hn (hint.symm.trans h)), if_neg hn]
      refine agrees_time fun now => agrees_command fun r => ?_
      cases r with
      | status s => exact agrees_locked (fun _ _ _ => ⟨_, rfl⟩) fun _ => agrees_ret _
      | _ => exact agrees_ret _
  | _ => exact agrees_ret _

/-- `CreateSubscriber` from its second reply on, whatever the first one was. -/
def afterReplies (a : OpenArgs) (r₁ : Reply) (r₂ : Option Reply) : QProg Int :=
  if checkReply (some r₁) .integer (-1) true ≠ 0 then
    return checkReply (some r₁) .integer (-1) true
  else if r₁.toInt ≠ 1 then return NO_EXIST
  else
    match r₂ with
    | none => return INTERNAL_ERROR
    | some reply =>
      if checkReply (some reply) .array (-1) true ≠ 0 then
        return checkReply (some reply) .array (-1) true
      else
        match getQueueValue Queue.empty reply with
        | none => return INTERNAL_ERROR
        | some queue =>
          if queue.option.msgType ≠ a.msgType then return MSGTYPE_ERROR
          else if a.msgType = PEER2PEER then return SUCCESS
          else registerSubscriber a

theorem createSubscriber_agrees (a : OpenArgs) :
    Agrees P clock uuid (createSubscriber a) (createSubscriberDirect a) := by
  refine agrees_pair (g := afterReplies a) (fun r₁ => ?_) (fun r₁ r₂ => ?_)
  · -- on every path the second reply is read
    by_cases hret : checkReply (some r₁) .integer (-1) true ≠ 0
    · have hafter : afterReplies a r₁ = fun r₂ => _ := funext fun r₂ => if_pos hret
      rw [hafter]
      exact (if_pos hret).trans (drain_one _)
    · by_cases hint : r₁.toInt ≠ 1
      · have hafter : afterReplies a r₁ = fun r₂ => _ :=
          funext fun r₂ => (if_neg hret).trans (if_pos hint)
        rw [hafter]
        exact (if_neg hret).trans (if_pos hint)
      · have hafter : afterReplies a r₁ = fun r₂ => _ :=
          funext fun r₂ => (if_neg hret).trans (if_neg hint)
        rw [hafter]
        exact (if_neg hret).trans (if_neg hint)
  · unfold afterReplies
    cases r₁ with
    | integer n =>
      have hret : ¬ checkReply (some (.integer n)) .integer (-1) true ≠ 0 := fun h => h rfl
      by_cases hn : n = 1
      · have hint : ¬ (Reply.integer n).toInt ≠ 1 := fun h => h hn
        simp only [if_neg hret, if_neg hint, if_pos hn]
        cases r₂ with
        | array elements =>
          have hret : ¬ checkReply (some (.array elements)) .array (-1) true ≠ 0 := fun h => h rfl
          simp only [if_neg hret]
          cases getQueueValue Queue.empty (.array elements) with
          | none => exact agrees_ret _
          | some queue =>
            by_cases hty : queue.option.msgType ≠ a.msgType
            · simp only [if_pos hty]
              exact agrees_ret _
            · by_cases hp : a.msgType = PEER2PEER
              · simp only [if_neg hty, if_pos hp]
                exact agrees_ret _
              · simp only [if_neg hty, if_neg hp]
                exact registerSubscriber_agrees a
        | _ => exact agrees_ret _
      · have hint : (Reply.integer n).toInt ≠ 1 := hn
        simp only [if_neg hret, if_pos hint, if_neg hn]
        exact agrees_ret _
    | _ => exact agrees_ret _

theorem openQueue_agrees (a : OpenArgs) :
    Agrees P clock uuid (openQueue a) (openQueueDirect a) := by
  have hlock : ∀ ret, Agrees P clock uuid
      (if ret = SUCCESS then locked (.openLock a) >>= fun code => pure (ret, some code)
        else pure (ret, none))
      (if ret = SUCCESS then locked (.openLock a) >>= fun code => pure (ret, some code)
        else pure (ret, none)) := by
    intro ret
    split
    · exact agrees_locked (fun _ _ _ => ⟨_, rfl⟩) fun _ => agrees_ret _
    · exact agrees_ret _
  unfold openQueue openQueueDirect
  cases a.role with
  | publisher => exact agrees_bind (createPublisher_agrees a) hlock
  | subscriber => exact agrees_bind (createSubscriber_agrees a) hlock
  | other => exact hlock 0

/-- `PopMsg` from its second reply on, whatever the first one was. -/
def afterPop (r₁ : Reply) (r₂ : Option Reply) : QProg (Int × Option Bytes) :=
  if checkReply (some r₁) .string (-1) true ≠ 0 then
    return (checkReply (some r₁) .string (-1) true, none)
  else if checkReply r₂ .integer (-1) true ≠ 0 then
    return (checkReply r₂ .integer (-1) true, none)
  else if (unserialize r₁.str).1 < 0 then return (INTERNAL_ERROR, some r₁.str)
  else return (0, some (unserialize r₁.str).2)

theorem popMsg_agrees (code : Bytes) :
    Agrees P clock uuid (popMsg code) (popMsgDirect code) := by
  unfold popMsg popMsgDirect
  refine agrees_locked (fun _ _ _ => ⟨_, rfl⟩) fun r => ?_
  cases r with
  | fail ret => exact agrees_ret _
  | go q c ty =>
    refine agrees_time fun now => ?_
    refine agrees_pair (g := afterPop) (fun r₁ => ?_) (fun r₁ r₂ => ?_)
    · unfold afterPop
      by_cases hret : checkReply (some r₁) .string (-1) true ≠ 0
      · simp only [if_pos hret]
        exact drain_one _
      · simp only [if_neg hret]
    · cases r₁ with
      | string data =>
        cases r₂ with
        | integer n =>
          show Agrees P clock uuid
            (if (unserialize data).1 < 0 then return (INTERNAL_ERROR, some data)
              else return (0, some data)) _
          by_cases hlen : (unserialize data).1 < 0
          · simp only [if_pos hlen]
            exact agrees_ret _
          · simp only [if_neg hlen]
            exact agrees_ret _
        | _ => exact agrees_ret _
      | _ => exact agrees_ret _

end

/-- **`OpenQueue` and `PopMsg` leave the pipeline empty.** On a connection that does not fail and
has no unread reply they return, whatever the replies are, with every reply read; and what they
return and do is what follows from giving every command its own reply. -/
theorem pipeline_empty {π : Type} (P : Cmd → π → Reply × π) (clock : Nat → Nat) (uuid : Uuid)
    (m : QueueMgr) (s : π) :
    (∀ a, ∃ x w,
      (openQueue a).eval (Talk.exec (answering P) clock uuid) (.idle m s) = some (x, w) ∧
      (openQueueDirect a).eval (Talk.direct (answering P) clock uuid) (.idle m s) = some (x, w) ∧
      w.taken = w.log.length) ∧
    ∀ code, ∃ x w,
      (popMsg code).eval (Talk.exec (answering P) clock uuid) (.idle m s) = some (x, w) ∧
      (popMsgDirect code).eval (Talk.direct (answering P) clock uuid) (.idle m s) = some (x, w) ∧
      w.taken = w.log.length :=
  ⟨fun a => openQueue_agrees a (.idle m s) rfl, fun code => popMsg_agrees code (.idle m s) rfl⟩

end Domq.Mq
