import Domq.Mq.State
import Domq.Lib.Prog

/-!
# The operations of `QueueMgr`

`queuemgr.cpp`, each member function as a procedure (`Prog`) over the connector's interface
(`AppendCommand`, `GetReply`, `Command`), `time(NULL)`, and the locked sections of `State.lean`.
Who answers is left open, so the same procedures run against Redis, against any script of replies,
alone or interleaved with other threads.

* `GetReply` answers `none` when it returns something else than `REDIS_OK`, `Command` when it
  returns a null pointer.
* `checkReply` is the decision of the macro `_CHECK_REPLY`. Its last count argument is spliced into
  a condition and a loop test, and evaluated each time: `drain` is the loop for a constant,
  `drainDec` for `--totalReply` (`PushMsg`), `drainSelf` for `queue.clients.size()-i-1`
  (`LoadQueues`), whose `i` is the macro's own loop variable.
* A command is the text that the format of the call asks for. The formatter is that of hiredis,
  which is no part of the repository; it is taken to know `%zd`, with which `CreateSubscriber`
  writes the time, as `printf` does.
* Freeing replies and logging are left out.
-/

namespace Domq.Mq

open Domq.Lib Domq.Redis

/-! ## Actions -/

/-- The atomic actions of a procedure. -/
inductive Act
  /-- `RedisConnector::AppendCommand` -/
  | append (c : Cmd)
  /-- `RedisConnector::GetReply` -/
  | getReply
  /-- `RedisConnector::Command` -/
  | command (c : Cmd)
  /-- `time(NULL)` outside the lock -/
  | time
  /-- a section under `_rwMutex` -/
  | locked (s : Section)

/-- The answer to an action. -/
@[reducible] def Act.Res : Act → Type
  | .append _ => Unit
  | .getReply => Option Reply
  | .command _ => Option Reply
  | .time => Nat
  | .locked s => s.Res

/-- Procedures of `QueueMgr`. -/
abbrev QProg := Prog Act Act.Res

def append (c : Cmd) : QProg Unit := Prog.perform (Act.append c)
def getReply : QProg (Option Reply) := Prog.perform Act.getReply
def command (c : Cmd) : QProg (Option Reply) := Prog.perform (Act.command c)
def time : QProg Nat := Prog.perform Act.time
def locked (s : Section) : QProg s.Res := Prog.perform (Act.locked s)

section

variable {α : Type}

@[simp] theorem append_bind (c : Cmd) (k : Unit → QProg α) :
    (append c >>= k) = Prog.act (Act.append c) k := rfl

@[simp] theorem getReply_bind (k : Option Reply → QProg α) :
    (getReply >>= k) = Prog.act Act.getReply k := rfl

@[simp] theorem command_bind (c : Cmd) (k : Option Reply → QProg α) :
    (command c >>= k) = Prog.act (Act.command c) k := rfl

@[simp] theorem time_bind (k : Nat → QProg α) : (time >>= k) = Prog.act Act.time k := rfl

@[simp] theorem locked_bind (s : Section) (k : s.Res → QProg α) :
    (locked s >>= k) = Prog.act (Act.locked s) k := rfl

end

/-! ## `_CHECK_REPLY` -/

/-- The `ret` the macro computes: `0` when the reply is as it should be. -/
def checkReply (reply : Option Reply) (rightType : ReplyType) (errno : Int) (isCheckNil : Bool) :
    Int :=
  match reply with
  | none => errno
  | some r =>
    if isCheckNil ∧ r.type = .nil then NO_EXIST
    else if r.type ≠ .nil ∧ r.type ≠ rightType then errno
    else 0

/-- The macro's loop with a constant count: reads replies until one fails. -/
def drain : Nat → QProg Unit
  | 0 => return
  | n + 1 => do
    match ← getReply with
    | none => return
    | some _ => drain n

/-- The macro's loop for one reply. -/
theorem drain_one {β : Type} (p : QProg β) :
    (drain 1 >>= fun _ => p) = getReply >>= fun _ => p := by
  show Prog.act Act.getReply _ = Prog.act Act.getReply _
  congr 1
  funext r
  cases r with
  | none => rfl
  | some r => rfl

/-- The macro's loop with the count `--totalReply`: `i < int(--totalReply)`. -/
def drainDec : (totalReply i : Nat) → QProg Unit
  | 0, _ => return -- `--totalReply` wraps, and `int` of it is `-1`
  | total + 1, i =>
    if (i : Int) < (Int32.ofNat total).toInt then do
      match ← getReply with
      | none => return
      | some _ => drainDec total (i + 1)
    else return

/-- The macro's loop with the count `size-i-1`, where `i` is its own variable; `fuel = size` bounds
its turns. -/
def drainSelf (size : Nat) : (fuel i : Nat) → QProg Unit
  | 0, _ => return
  | fuel + 1, i =>
    if (i : Int) < (Int32.ofInt (size - i - 1)).toInt then do
      match ← getReply with
      | none => return
      | some _ => drainSelf size fuel (i + 1)
    else return

/-! ## Metadata -/

/-- `integer` of a reply, assigned to a `size_t`. -/
def toSize (n : Int) : Nat := (n % 2 ^ 64).toNat

/-- The loop of `GetQueueValue`: the queue so far and the number of fields recognised. -/
def getQueueValueLoop : List Reply → Queue → Nat → Queue × Nat
  | cur :: next :: rest, queue, count =>
    let is (field : String) := strncmpEq cur.str (ascii field) cur.str.length
    if is "name" then
      getQueueValueLoop rest
        { queue with option := { queue.option with msgQueueName := next.str } } (count + 1)
    else if is "duration" then
      getQueueValueLoop rest
        { queue with option := { queue.option with duration := Int32.ofInt (atol next.str) } }
        (count + 1)
    else if is "maxcount" then
      getQueueValueLoop rest
        { queue with option := { queue.option with maxCount := Int32.ofInt (atol next.str) } }
        (count + 1)
    else if is "type" then
      getQueueValueLoop rest
        { queue with option := { queue.option with msgType := Int32.ofInt (atol next.str) } }
        (count + 1)
    else if is "lastvisit" then
      getQueueValueLoop rest { queue with lastVisit := atol next.str } (count + 1)
    else getQueueValueLoop rest queue count
  | _, queue, count => (queue, count)

/-- `GetQueueValue`: the queue with the fields of an `HGETALL` reply, `none` when it returns `-1`.
-/
def getQueueValue (queue : Queue) (reply : Reply) : Option Queue :=
  match getQueueValueLoop reply.elements queue 0 with
  | (queue', count) => if count < 5 then none else some queue'

/-- The fields of the `HMSET` by which `CreatePublisher` writes a queue's metadata. -/
def metaFields (a : OpenArgs) (now : Nat) : List (Bytes × Bytes) :=
  [(ascii "name", a.msgQueueName.bytes),
   (ascii "duration", fmtInt a.duration.toInt),
   (ascii "maxcount", fmtInt a.maxCount.toInt),
   (ascii "type", fmtInt a.msgType.toInt),
   (ascii "lastvisit", fmtInt (Int32.ofNat now).toInt)]

/-! ## `OpenQueue` -/

/-- `CreatePublisher`. -/
def createPublisher (a : OpenArgs) : QProg Int := do
  let reply ← command (.sismember allQueueName a.msgQueueName.bytes)
  let ret := checkReply reply .integer (-1) true
  if ret ≠ 0 then return ret
  if (reply.map Reply.toInt).getD 0 = 0 then
    if a.create &&& 1 ≠ 0 then
      append (.sadd allQueueName a.msgQueueName.bytes)
      let now ← time
      append (.hmset (getQueueMetaName a.msgQueueName.bytes) (metaFields a now))
      match ← getReply with
      | none => return INTERNAL_ERROR
      | some _ =>
        match ← getReply with
        | none => return INTERNAL_ERROR
        | some _ => return SUCCESS
    else return NO_EXIST
  else return SUCCESS

/-- The last part of `CreateSubscriber`: a subscriber's entry in Redis and in the cache. -/
def registerSubscriber (a : OpenArgs) : QProg Int := do
  let reply ← command (.hexists (getSubQueueMetaName a.msgQueueName.bytes) a.clientName.bytes)
  let ret := checkReply reply .integer (-1) true
  if ret ≠ 0 then return ret
  if (reply.map Reply.toInt).getD 0 = 1 then return SUCCESS
  let now ← time
  let reply ← command (.hmset (getSubQueueMetaName a.msgQueueName.bytes)
    [(a.clientName.bytes, fmtInt now)])
  let ret := checkReply reply .status (-1) true
  if ret ≠ 0 then return ret
  locked (.addClient a.msgQueueName a.clientName)
  return SUCCESS

/-- `CreateSubscriber`. -/
def createSubscriber (a : OpenArgs) : QProg Int := do
  append (.sismember allQueueName a.msgQueueName.bytes)
  append (.hgetall (getQueueMetaName a.msgQueueName.bytes))
  match ← getReply with
  | none => return INTERNAL_ERROR
  | some reply =>
    let ret := checkReply (some reply) .integer (-1) true
    if ret ≠ 0 then
      drain 1
      return ret
    if reply.toInt ≠ 1 then
      let _ ← getReply
      return NO_EXIST
    match ← getReply with
    | none => return INTERNAL_ERROR
    | some reply =>
      let ret := checkReply (some reply) .array (-1) true
      if ret ≠ 0 then return ret
      match getQueueValue Queue.empty reply with
      | none => return INTERNAL_ERROR
      | some queue =>
        if queue.option.msgType ≠ a.msgType then return MSGTYPE_ERROR
        if a.msgType = PEER2PEER then return SUCCESS
        registerSubscriber a

/-- `OpenQueue`: the return value, and the session code it hands out on success. -/
def openQueue (a : OpenArgs) : QProg (Int × Option Bytes) := do
  let ret ←
    match a.role with
    | .publisher => createPublisher a
    | .subscriber => createSubscriber a
    | .other => pure 0
  if ret = SUCCESS then
    let code ← locked (.openLock a)
    return (ret, some code)
  else return (ret, none)

/-! ## `PushMsg` and `PopMsg` -/

/-- `_CHECK_REPLY(.., --totalReply, ..)` after a wrong reply: drain and return. -/
def failPush (ret : Int) (totalReply : Nat) : QProg Int := do
  if 0 < totalReply - 1 then drainDec (totalReply - 1) 0
  return ret

/-- The reply loop of `PushMsg`, with `n` turns to go. -/
def pushReplies (totalReply : Nat) : Nat → QProg Int
  | 0 => return 0
  | n + 1 => do
    match ← getReply with
    | none => return INTERNAL_ERROR
    | some pushReply =>
      let ret := checkReply (some pushReply) .integer (-1) true
      if ret ≠ 0 then failPush ret totalReply
      else
        match ← getReply with
        | none => return INTERNAL_ERROR
        | some updateVisitReply =>
          let ret := checkReply (some updateVisitReply) .integer (-1) true
          if ret ≠ 0 then failPush ret totalReply
          else pushReplies totalReply n

/-- Appending a list of commands. -/
def appendAll : List Cmd → QProg Unit
  | [] => return
  | c :: cs => do
    append c
    appendAll cs

/-- The commands by which `PushMsg` writes `data` to a queue. -/
def pushCmds (queueName : CStr) (msgType : Int32) (listBuf : List CStr) (data : Bytes)
    (now : Nat) : List Cmd :=
  if msgType = SUB2PUB then
    listBuf.flatMap fun c =>
      [.rpush (getQueueSubName queueName.bytes c.bytes) data,
       .hset (getSubQueueMetaName queueName.bytes) c.bytes (fmtInt (Int32.ofNat now).toInt)]
  else
    [.rpush (getQueueMsgName queueName.bytes) data,
     .hset (getQueueMetaName queueName.bytes) (ascii "lastvisit")
      (fmtInt (Int32.ofNat now).toInt)]

/-- `PushMsg`. -/
def pushMsg (msgQueueCode data : Bytes) : QProg Int := do
  match ← locked (.pushLock msgQueueCode) with
  | .fail ret => return ret
  | .limit => return MSG_LIMIT
  | .go queueName _ msgType listBuf =>
    if msgType = SUB2PUB ∧ listBuf.length = 0 then return SUCCESS
    let now ← time
    appendAll (pushCmds queueName msgType listBuf data now)
    let turns := if msgType = SUB2PUB then listBuf.length else 1
    pushReplies (2 * turns) turns

/-- `QueueMsg::Unserialize(buf, bufLen)`: the result, which is the length as an `int`, and the data.
-/
def unserialize (buf : Bytes) : Int × Bytes := ((Int32.ofNat buf.length).toInt, buf)

theorem not_unserialize_neg {buf : Bytes} (h : buf.length < 2 ^ 31) :
    ¬ (unserialize buf).1 < 0 := by
  have := Int32.toInt_ofNat_of_lt h
  unfold unserialize
  omega

/-- `PopMsg`: the return value, and `msg.data` when it is set. -/
def popMsg (msgQueueCode : Bytes) : QProg (Int × Option Bytes) := do
  match ← locked (.popLock msgQueueCode) with
  | .fail ret => return (ret, none)
  | .go queueName clientName msgType =>
    let now ← time
    let (queueMetaName, queueMsgName, timeProperty) :=
      if msgType = SUB2PUB then
        (getSubQueueMetaName queueName.bytes, getQueueSubName queueName.bytes clientName.bytes,
          clientName.bytes)
      else
        (getQueueMetaName queueName.bytes, getQueueMsgName queueName.bytes, ascii "lastvisit")
    append (.lpop queueMsgName)
    append (.hset queueMetaName timeProperty (fmtInt (Int32.ofNat now).toInt))
    match ← getReply with
    | none => return (INTERNAL_ERROR, none)
    | some reply =>
      let ret := checkReply (some reply) .string (-1) true
      if ret ≠ 0 then
        drain 1
        return (ret, none)
      let updateLastVisitReply ← getReply
      let ret := checkReply updateLastVisitReply .integer (-1) true
      if ret ≠ 0 then return (ret, none)
      if (unserialize reply.str).1 < 0 then return (INTERNAL_ERROR, some reply.str)
      return (0, some (unserialize reply.str).2)

/-! ## `LoadQueues` -/

/-- The clients of an `HGETALL` reply on a subscriber hash. -/
def loadClients : List Reply → Except Int (List SubQueue)
  | cur :: next :: rest =>
    let ret := checkReply (some cur) .string (-1) false
    if ret ≠ 0 then .error ret
    else (loadClients rest).map fun l => ⟨CStr.ofBytes cur.str, 0, atol next.str⟩ :: l
  | _ => .ok []

/-- The `LLEN` replies of the subscriber lists: the clients with their lengths, or the return
value. -/
def loadCounts (size : Nat) : List SubQueue → QProg (Except Int (List SubQueue))
  | [] => return .ok []
  | sub :: rest => do
    match ← getReply with
    | none => return .error (-1)
    | some getSubCountReply =>
      let ret := checkReply (some getSubCountReply) .integer (-1) true
      if ret ≠ 0 then
        if 0 < rest.length then drainSelf size size 0
        return .error ret
      match ← loadCounts size rest with
      | .error ret => return .error ret
      | .ok l => return .ok ({ sub with msgCount := toSize getSubCountReply.toInt } :: l)

/-- The part of `LoadQueues` for a `SUB2PUB` queue: the queue with its clients, or the return
value. -/
def loadSubscribers (queue : Queue) : QProg (Except Int Queue) := do
  append (.hgetall (cStr (getSubQueueMetaName queue.option.msgQueueName)))
  match ← getReply with
  | none => return .error (-1)
  | some subReply =>
    let ret := checkReply (some subReply) .array (-1) false
    if ret ≠ 0 then return .error ret
    if subReply.type = .nil then return .ok queue
    match loadClients subReply.elements with
    | .error ret => return .error ret
    | .ok clients =>
      appendAll (clients.map fun sub =>
        .llen (cStr (getQueueSubName queue.option.msgQueueName sub.client.bytes)))
      match ← loadCounts clients.length clients with
      | .error ret => return .error ret
      | .ok clients => return .ok { queue with clients := clients }

/-- One turn of the loop of `LoadQueues`: the queue of one element of the `SMEMBERS` reply, to be
stored in `tmp`, or the return value. -/
def loadQueue (tmp : CStr → Option Queue) (element : Reply) : QProg (Except Int Queue) := do
  let ret := checkReply (some element) .string (-1) true
  if ret ≠ 0 then return .error ret
  let name := CStr.ofBytes element.str
  append (.hgetall (getQueueMetaName name.bytes))
  append (.llen (getQueueMsgName name.bytes))
  match ← getReply with
  | none => return .error (-1)
  | some allFieldReply =>
    let ret := checkReply (some allFieldReply) .array (-1) true
    if ret ≠ 0 then
      drain 1
      return .error ret
    match ← getReply with
    | none => return .error (-1)
    | some queueCountReply =>
      let ret := checkReply (some queueCountReply) .integer (-1) true
      if ret ≠ 0 then return .error ret
      match getQueueValue ((tmp name).getD Queue.empty) allFieldReply with
      | none => return .error (-1)
      | some queue =>
        let queue := { queue with msgCount := toSize queueCountReply.toInt }
        if queue.option.msgType = SUB2PUB then loadSubscribers queue
        else return .ok queue

/-- The loop of `LoadQueues` over the elements of the `SMEMBERS` reply, and the final swap. -/
def loadLoop : List Reply → (CStr → Option Queue) → QProg Int
  | [], tmp => do
    locked (.swapQueues tmp)
    return 0
  | element :: rest, tmp => do
    match ← loadQueue tmp element with
    | .error ret => return ret
    | .ok queue => loadLoop rest (Function.update tmp (CStr.ofBytes element.str) (some queue))

/-- `LoadQueues`, which is all `LoadQueueMeta` does. -/
def loadQueues : QProg Int := do
  let reply ← command (.smembers allQueueName)
  let ret := checkReply reply .array (-1) false
  if ret ≠ 0 then return ret
  match reply with
  | none => return -1
  | some reply =>
    if reply.type = .nil then return 0
    loadLoop reply.elements fun _ => none

end Domq.Mq
