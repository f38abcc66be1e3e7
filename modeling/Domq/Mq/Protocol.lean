import Domq.Mq.System

/-!
# What a call does, step by step

The contract of every call on `QueueMgr` while Redis executes every command: which command or locked
section may come next, given what the call has done so far (`Exec`, `Locks`), and what it has done
when it returns (`Returns`). `callProg_meets` proves each procedure of `Mgr.lean` against it once;
whatever holds across interleavings is then proved about the steps of this contract
(`Sys.Reach.protocol`), without looking into the procedures again.

* `OpenQueue` as a publisher: `SISMEMBER`, and for a queue that does not exist `SADD`, `HMSET`.
* `OpenQueue` as a subscriber: `SISMEMBER`, `HGETALL`, and unless the queue is point to point
  `HEXISTS`; for a new client `HMSET` and the insertion in the cache.
* `PushMsg`, `PopMsg`: the lookup under the lock, then the pipelined commands in order.
* `LoadQueueMeta`: `SMEMBERS`, reading commands, and the swap of what was read (`ReadQueue`).
-/

namespace Domq.Mq

open Domq.Lib Domq.Redis

/-! ## The contract -/

namespace OpenArgs

/-- The commands of `OpenQueue`. -/
def isMember (a : OpenArgs) : Cmd := .sismember allQueueName a.msgQueueName.bytes
def addName (a : OpenArgs) : Cmd := .sadd allQueueName a.msgQueueName.bytes
def writeMeta (a : OpenArgs) (now : Nat) : Cmd :=
  .hmset (getQueueMetaName a.msgQueueName.bytes) (metaFields a now)
def readMeta (a : OpenArgs) : Cmd := .hgetall (getQueueMetaName a.msgQueueName.bytes)
def isClient (a : OpenArgs) : Cmd :=
  .hexists (getSubQueueMetaName a.msgQueueName.bytes) a.clientName.bytes
def addClient (a : OpenArgs) (now : Nat) : Cmd :=
  .hmset (getSubQueueMetaName a.msgQueueName.bytes) [(a.clientName.bytes, fmtInt now)]

/-- The publisher may create the queue. -/
def Creates (a : OpenArgs) : Prop := a.role = .publisher ∧ a.create &&& 1 ≠ 0

/-- The subscriber has found a queue of the type it asks for. -/
def Finds (a : OpenArgs) (h : Reply) : Prop :=
  a.role = .subscriber ∧
    ∃ queue, getQueueValue Queue.empty h = some queue ∧ queue.option.msgType = a.msgType

end OpenArgs

open OpenArgs

/-- The list `PopMsg` pops from. -/
def popList (q c : CStr) (ty : Int32) : Bytes :=
  if ty = SUB2PUB then getQueueSubName q.bytes c.bytes else getQueueMsgName q.bytes

/-- The commands of `PopMsg`. -/
def popVisit (q c : CStr) (ty : Int32) (now : Nat) : Cmd :=
  if ty = SUB2PUB then
    .hset (getSubQueueMetaName q.bytes) c.bytes (fmtInt (Int32.ofNat now).toInt)
  else .hset (getQueueMetaName q.bytes) (ascii "lastvisit") (fmtInt (Int32.ofNat now).toInt)

/-- The commands by which `LoadQueues` reads, after `SMEMBERS`. -/
inductive Reads : Cmd → Prop
  | metadata (q : Bytes) : Reads (.hgetall (getQueueMetaName q))
  | subs (q : Bytes) : Reads (.hgetall (cStr (getSubQueueMetaName q)))
  | msgs (q : Bytes) : Reads (.llen (getQueueMsgName q))
  | subMsgs (q c : Bytes) : Reads (.llen (cStr (getQueueSubName q c)))

def Ev.cmd? : Ev → Option Cmd
  | .redis c _ => some c
  | .locked _ _ _ => none

/-- A reading command of `LoadQueues` and its reply. -/
def Ev.IsRead (ev : Ev) : Prop := ∃ c r, ev = .redis c r ∧ Reads c

/-- The commands a call may have executed next. -/
inductive Exec : Call → Cmd → Prop
  | isMember (a : OpenArgs) (hr : a.role ≠ .other) : Exec ⟨.openQueue a, []⟩ a.isMember
  | addName (a : OpenArgs) (hc : a.Creates) :
      Exec ⟨.openQueue a, [.redis a.isMember (.integer 0)]⟩ a.addName
  | create (a : OpenArgs) (hc : a.Creates) (r : Reply) (now : Nat) :
      Exec ⟨.openQueue a, [.redis a.isMember (.integer 0), .redis a.addName r]⟩ (a.writeMeta now)
  | readMeta (a : OpenArgs) (hr : a.role = .subscriber) (r : Reply) :
      Exec ⟨.openQueue a, [.redis a.isMember r]⟩ a.readMeta
  | isClient (a : OpenArgs) (h : Reply) (hf : a.Finds h) (hp : a.msgType ≠ PEER2PEER) :
      Exec ⟨.openQueue a, [.redis a.isMember (.integer 1), .redis a.readMeta h]⟩ a.isClient
  | addClient (a : OpenArgs) (h : Reply) (hf : a.Finds h) (hp : a.msgType ≠ PEER2PEER)
      (now : Nat) :
      Exec ⟨.openQueue a, [.redis a.isMember (.integer 1), .redis a.readMeta h,
        .redis a.isClient (.integer 0)]⟩ (a.addClient now)
  | push (code data : Bytes) (now : Nat) (q c : CStr) (ty : Int32) (buf : List CStr)
      (evs : List Ev) (now' : Nat) (rest : List Cmd) (cmd : Cmd)
      (h : (pushCmds q ty buf data now').map some = evs.map Ev.cmd? ++ some cmd :: rest.map some) :
      Exec ⟨.pushMsg code data, .locked now (.pushLock code) (.go q c ty buf) :: evs⟩ cmd
  | pop (code : Bytes) (now : Nat) (q c : CStr) (ty : Int32) :
      Exec ⟨.popMsg code, [.locked now (.popLock code) (.go q c ty)]⟩ (.lpop (popList q c ty))
  | popVisit (code : Bytes) (now : Nat) (q c : CStr) (ty : Int32) (r : Reply) (now' : Nat) :
      Exec ⟨.popMsg code, [.locked now (.popLock code) (.go q c ty),
        .redis (.lpop (popList q c ty)) r]⟩ (popVisit q c ty now')
  | names : Exec ⟨.loadQueueMeta, []⟩ (.smembers allQueueName)
  | load (ev : Ev) (evs : List Ev) (hr : ∀ e ∈ evs, e.IsRead) (c : Cmd) (hc : Reads c) :
      Exec ⟨.loadQueueMeta, ev :: evs⟩ c

/-- The history of an `OpenQueue` that takes the lock to register its session. -/
inductive Granted (a : OpenArgs) : List Ev → Prop
  | other (hr : a.role = .other) : Granted a []
  | known (hr : a.role = .publisher) : Granted a [.redis a.isMember (.integer 1)]
  | created (hc : a.Creates) (r r' : Reply) (now : Nat) :
      Granted a [.redis a.isMember (.integer 0), .redis a.addName r, .redis (a.writeMeta now) r']
  | peer (h : Reply) (hf : a.Finds h) (hp : a.msgType = PEER2PEER) :
      Granted a [.redis a.isMember (.integer 1), .redis a.readMeta h]
  | client (h : Reply) (hf : a.Finds h) (hp : a.msgType ≠ PEER2PEER) :
      Granted a [.redis a.isMember (.integer 1), .redis a.readMeta h,
        .redis a.isClient (.integer 1)]
  | joined (h : Reply) (hf : a.Finds h) (hp : a.msgType ≠ PEER2PEER) (now now' : Nat) (r : Reply) :
      Granted a [.redis a.isMember (.integer 1), .redis a.readMeta h,
        .redis a.isClient (.integer 0), .redis (a.addClient now) r,
        .locked now' (.addClient a.msgQueueName a.clientName) ()]

/-- The history of an `OpenQueue` that returns without success. -/
inductive Refused (a : OpenArgs) : List Ev → Prop
  | unknown (hr : a.role = .publisher) (hc : a.create &&& 1 = 0) :
      Refused a [.redis a.isMember (.integer 0)]
  | missing (hr : a.role = .subscriber) (h : Reply) :
      Refused a [.redis a.isMember (.integer 0), .redis a.readMeta h]
  | mistyped (hr : a.role = .subscriber) (h : Reply) :
      Refused a [.redis a.isMember (.integer 1), .redis a.readMeta h]

/-- The pairs of a hash as the elements of an `HGETALL` reply. -/
def pairs (h : List (Bytes × Bytes)) : Reply :=
  .array (h.flatMap fun fv => [.string fv.1, .string fv.2])

/-- The queue `LoadQueues` makes of what it has read. -/
structure ReadQueue (evs : List Ev) (name : CStr) (queue : Queue) : Prop where
  metadata : ∃ q₀ q₁ h, Ev.redis (.hgetall (getQueueMetaName name.bytes)) h ∈ evs ∧
    getQueueValue q₀ h = some q₁ ∧ queue.option = q₁.option
  subs : queue.option.msgType = SUB2PUB →
    ∃ h, Ev.redis (.hgetall (cStr (getSubQueueMetaName queue.option.msgQueueName))) (pairs h) ∈
        evs ∧
      queue.clients.map SubQueue.client = h.map fun fv => CStr.ofBytes fv.1

/-- The queues `LoadQueues` has read when it is through with `names`. -/
structure ReadAll (evs : List Ev) (names : List Bytes) (tmp : CStr → Option Queue) : Prop where
  all : ∀ name ∈ names, (tmp (CStr.ofBytes name)).isSome
  only : ∀ name queue, tmp name = some queue →
    (∃ n ∈ names, CStr.ofBytes n = name) ∧ ReadQueue evs name queue

/-- The locked sections a call may enter next. -/
inductive Locks : Call → Section → Prop
  | addClient (a : OpenArgs) (h : Reply) (hf : a.Finds h) (hp : a.msgType ≠ PEER2PEER)
      (now : Nat) (r : Reply) :
      Locks ⟨.openQueue a, [.redis a.isMember (.integer 1), .redis a.readMeta h,
        .redis a.isClient (.integer 0), .redis (a.addClient now) r]⟩
        (.addClient a.msgQueueName a.clientName)
  | openLock (a : OpenArgs) (evs : List Ev) (hg : Granted a evs) :
      Locks ⟨.openQueue a, evs⟩ (.openLock a)
  | pushLock (code data : Bytes) : Locks ⟨.pushMsg code data, []⟩ (.pushLock code)
  | popLock (code : Bytes) : Locks ⟨.popMsg code, []⟩ (.popLock code)
  | closeQueue (code : Bytes) : Locks ⟨.closeQueue code, []⟩ (.closeQueue code)
  | removeExpire (e : Int) :
      Locks ⟨.removeExpireMsgQueueCode e, []⟩ (.removeExpireMsgQueueCode e)
  | swapQueues (names : List Bytes) (evs : List Ev) (tmp : CStr → Option Queue)
      (hr : ReadAll evs names tmp) (hread : ∀ e ∈ evs, e.IsRead) :
      Locks ⟨.loadQueueMeta,
        .redis (.smembers allQueueName) (.array (names.map .string)) :: evs⟩ (.swapQueues tmp)

/-- What a call has done when it returns. -/
def Returns (call : Call) (x : Ret) : Prop :=
  match call.op with
  | .openQueue a =>
    (∃ evs now code, x = (SUCCESS, some code) ∧ Granted a evs ∧
      call.evs = evs ++ [.locked now (.openLock a) code]) ∨
    x.1 ≠ SUCCESS ∧ Refused a call.evs
  | .pushMsg code data =>
    (x.1 = SUCCESS → ∃ now q c ty buf now' evs,
      call.evs = .locked now (.pushLock code) (.go q c ty buf) :: evs ∧
        evs.map Ev.cmd? = (pushCmds q ty buf data now').map some) ∧
    (x.1 ≠ SUCCESS → ∃ now r, call.evs = [.locked now (.pushLock code) r] ∧
      ∀ q c ty buf, r ≠ .go q c ty buf)
  | .popMsg code =>
    (x.1 ≠ SUCCESS ∧ x.2 = none ∧ ∃ now ret, call.evs = [.locked now (.popLock code) (.fail ret)]) ∨
    ∃ now q c ty r now' r', call.evs = [.locked now (.popLock code) (.go q c ty),
        .redis (.lpop (popList q c ty)) r, .redis (popVisit q c ty now') r'] ∧
      (r = .nil ∧ x = (NO_EXIST, none) ∨ ∃ d, r = .string d ∧ x = (SUCCESS, some d))
  | _ => True

/-- What the contract sees of a thread. -/
structure Ghost where
  pipe : List Cmd
  cur : Option Call

def Ghost.did (g : Ghost) (ev : Ev) : Ghost := { g with cur := g.cur.map fun call => call.did ev }

/-- A section can give this result. -/
def Section.Gives (s : Section) (r : s.Res) : Prop :=
  ∃ now u m m', s.run now u m = some (r, m')

/-- The contract. -/
def proto : Prog.Contract Act Act.Res Ghost where
  gua g
    | .append _ => True
    | .getReply => ∃ call c cs, g.cur = some call ∧ g.pipe = c :: cs ∧ Exec call c
    | .command c => ∃ call, g.cur = some call ∧ g.pipe = [] ∧ Exec call c
    | .time => True
    | .locked s => ∃ call, g.cur = some call ∧ Locks call s
  step g
    | .append c, _, g' => g' = { g with pipe := g.pipe ++ [c] }
    | .getReply, r, g' => ∃ c cs rep, g.pipe = c :: cs ∧ r = some rep ∧ c.ReplyOk rep ∧
        rep.Short ∧ g' = { g with pipe := cs }.did (.redis c rep)
    | .command c, r, g' => ∃ rep, r = some rep ∧ c.ReplyOk rep ∧ g' = g.did (.redis c rep)
    | .time, _, g' => g' = g
    | .locked s, r, g' => ∃ now, s.Gives r ∧ g' = g.did (.locked now s r)

/-! ## Rules for the primitives -/

section

variable {α : Type} {Q : Ghost → α → Prop} {g : Ghost} {pipe : List Cmd} {cur : Option Call}
variable {call : Call}

theorem meets_append {c : Cmd} {k : Unit → QProg α}
    (h : (k ()).Meets proto Q ⟨pipe ++ [c], cur⟩) :
    (append c >>= k).Meets proto Q ⟨pipe, cur⟩ := by
  refine ⟨trivial, ?_⟩
  rintro ⟨⟩ g' rfl
  exact h

theorem meets_getReply_short {c : Cmd} {k : Option Reply → QProg α} (hex : Exec call c)
    (h : ∀ rep, c.ReplyOk rep → rep.Short →
      (k (some rep)).Meets proto Q ⟨pipe, some (call.did (.redis c rep))⟩) :
    (getReply >>= k).Meets proto Q ⟨c :: pipe, some call⟩ := by
  refine ⟨⟨call, c, pipe, rfl, rfl, hex⟩, ?_⟩
  rintro r g' ⟨c', cs', rep, hp, rfl, hok, hshort, rfl⟩
  cases hp
  exact h rep hok hshort

theorem meets_getReply {c : Cmd} {k : Option Reply → QProg α} (hex : Exec call c)
    (h : ∀ rep, c.ReplyOk rep →
      (k (some rep)).Meets proto Q ⟨pipe, some (call.did (.redis c rep))⟩) :
    (getReply >>= k).Meets proto Q ⟨c :: pipe, some call⟩ :=
  meets_getReply_short hex fun rep hok _ => h rep hok

theorem meets_command {c : Cmd} {k : Option Reply → QProg α} (hex : Exec call c)
    (h : ∀ rep, c.ReplyOk rep →
      (k (some rep)).Meets proto Q ⟨[], some (call.did (.redis c rep))⟩) :
    (command c >>= k).Meets proto Q ⟨[], some call⟩ := by
  refine ⟨⟨call, rfl, rfl, hex⟩, ?_⟩
  rintro r g' ⟨rep, rfl, hok, rfl⟩
  exact h rep hok

theorem meets_time {k : Nat → QProg α} (h : ∀ now, (k now).Meets proto Q g) :
    (time >>= k).Meets proto Q g := by
  refine ⟨trivial, ?_⟩
  rintro now g' rfl
  exact h now

theorem meets_locked {s : Section} {k : s.Res → QProg α} (hl : Locks call s)
    (h : ∀ now r, s.Gives r →
      (k r).Meets proto Q ⟨pipe, some (call.did (.locked now s r))⟩) :
    (locked s >>= k).Meets proto Q ⟨pipe, some call⟩ := by
  refine ⟨⟨call, rfl, hl⟩, ?_⟩
  rintro r g' ⟨now, hg, rfl⟩
  exact h now r hg

end

/-! ## Replies -/

section

variable (errno : Int) (nil : Bool)

@[simp] theorem checkReply_of_integer (n : Int) :
    checkReply (some (.integer n)) .integer errno nil = 0 := by
  simp [checkReply, Reply.type]

@[simp] theorem checkReply_of_status (t : Bytes) :
    checkReply (some (.status t)) .status errno nil = 0 := by
  simp [checkReply, Reply.type]

@[simp] theorem checkReply_of_array (l : List Reply) :
    checkReply (some (.array l)) .array errno nil = 0 := by
  simp [checkReply, Reply.type]

@[simp] theorem checkReply_of_string (t : Bytes) :
    checkReply (some (.string t)) .string errno nil = 0 := by
  simp [checkReply, Reply.type]

end

/-! ## `OpenQueue` -/

/-- Where an `OpenQueue` is after `CreatePublisher` or `CreateSubscriber`. -/
def Decided (a : OpenArgs) (g : Ghost) (ret : Int) : Prop :=
  ∃ evs, g = ⟨[], some ⟨.openQueue a, evs⟩⟩ ∧
    (ret = SUCCESS ∧ Granted a evs ∨ ret ≠ SUCCESS ∧ Refused a evs)

theorem createPublisher_meets (a : OpenArgs) (hr : a.role = .publisher) :
    (createPublisher a).Meets proto (Decided a) ⟨[], some ⟨.openQueue a, []⟩⟩ := by
  unfold createPublisher
  refine meets_command (.isMember a (by simp [hr])) fun rep hrep => ?_
  rcases hrep with rfl | rfl
  · simp only [checkReply_of_integer, ne_eq, not_true_eq_false, if_false, Option.map_some,
      Reply.toInt, Option.getD_some, if_true]
    by_cases hc : a.create &&& 1 = 0
    · rw [if_neg (by simp [hc])]
      exact ⟨_, rfl, .inr ⟨by decide, .unknown hr hc⟩⟩
    · rw [if_pos hc]
      refine meets_append (meets_time fun now => meets_append ?_)
      refine meets_getReply (.addName a ⟨hr, hc⟩) fun r _ => ?_
      refine meets_getReply (.create a ⟨hr, hc⟩ r now) fun r' _ => ?_
      exact ⟨_, rfl, .inl ⟨rfl, .created ⟨hr, hc⟩ r r' now⟩⟩
  · simp only [checkReply_of_integer, ne_eq, not_true_eq_false, if_false, Option.map_some,
      Reply.toInt, Option.getD_some, one_ne_zero]
    exact ⟨_, rfl, .inl ⟨rfl, .known hr⟩⟩

theorem registerSubscriber_meets (a : OpenArgs) (h : Reply) (hf : a.Finds h)
    (hp : a.msgType ≠ PEER2PEER) :
    (registerSubscriber a).Meets proto (Decided a)
      ⟨[], some ⟨.openQueue a, [.redis a.isMember (.integer 1), .redis a.readMeta h]⟩⟩ := by
  unfold registerSubscriber
  refine meets_command (.isClient a h hf hp) fun rep hrep => ?_
  rcases hrep with rfl | rfl
  · simp only [checkReply_of_integer, ne_eq, not_true_eq_false, if_false, Option.map_some,
      Reply.toInt, Option.getD_some, zero_ne_one]
    refine meets_time fun now => ?_
    refine meets_command (.addClient a h hf hp now) fun rep hrep => ?_
    obtain ⟨t, rfl⟩ := hrep
    simp only [checkReply_of_status, not_true_eq_false, if_false]
    refine meets_locked (.addClient a h hf hp now _) fun now' r _ => ?_
    exact ⟨_, rfl, .inl ⟨rfl, .joined h hf hp now now' _⟩⟩
  · simp only [checkReply_of_integer, ne_eq, not_true_eq_false, if_false, Option.map_some,
      Reply.toInt, Option.getD_some, if_true]
    exact ⟨_, rfl, .inl ⟨rfl, .client h hf hp⟩⟩

theorem createSubscriber_meets (a : OpenArgs) (hr : a.role = .subscriber) :
    (createSubscriber a).Meets proto (Decided a) ⟨[], some ⟨.openQueue a, []⟩⟩ := by
  unfold createSubscriber
  refine meets_append (meets_append ?_)
  refine meets_getReply (.isMember a (by simp [hr])) fun rep hrep => ?_
  rcases hrep with rfl | rfl
  · -- the queue does not exist; the other reply is read and dropped
    simp only [checkReply_of_integer, ne_eq, not_true_eq_false, if_false, Reply.toInt, zero_ne_one,
      not_false_eq_true, if_true]
    refine meets_getReply (.readMeta a hr _) fun rep _ => ?_
    exact ⟨_, rfl, .inr ⟨by decide, .missing hr rep⟩⟩
  · simp only [checkReply_of_integer, ne_eq, not_true_eq_false, if_false, Reply.toInt]
    refine meets_getReply (.readMeta a hr _) fun rep hrep => ?_
    obtain ⟨h, rfl⟩ := hrep
    simp only [checkReply_of_array, not_true_eq_false, if_false]
    cases hq : getQueueValue Queue.empty (pairs h) with
    | none =>
      simp only [pairs] at hq
      simp only [hq]
      exact ⟨_, rfl, .inr ⟨by decide, .mistyped hr _⟩⟩
    | some queue =>
      simp only [pairs] at hq
      simp only [hq]
      by_cases hty : queue.option.msgType = a.msgType
      · rw [if_neg (by simpa using hty)]
        have hf : a.Finds (pairs h) := ⟨hr, queue, hq, hty⟩
        by_cases hp : a.msgType = PEER2PEER
        · rw [if_pos hp]
          exact ⟨_, rfl, .inl ⟨rfl, .peer _ hf hp⟩⟩
        · rw [if_neg hp]
          exact registerSubscriber_meets a _ hf hp
      · rw [if_pos (by simpa using hty)]
        exact ⟨_, rfl, .inr ⟨by decide, .mistyped hr _⟩⟩

/-- Where a call is when it returns. -/
def Ends (op : Op) (g : Ghost) (x : Ret) : Prop :=
  ∃ call, g = ⟨[], some call⟩ ∧ call.op = op ∧ Returns call x

theorem openQueue_meets (a : OpenArgs) :
    (openQueue a).Meets proto (Ends (.openQueue a)) ⟨[], some ⟨.openQueue a, []⟩⟩ := by
  have hlock : ∀ g ret, Decided a g ret →
      (if ret = SUCCESS then do
          let code ← locked (.openLock a)
          return (ret, some code)
        else return (ret, none) : QProg Ret).Meets proto (Ends (.openQueue a)) g := by
    rintro g ret ⟨evs, rfl, ⟨rfl, hgr⟩ | ⟨hret, href⟩⟩
    · rw [if_pos rfl]
      refine meets_locked (.openLock a evs hgr) fun now code _ => ?_
      exact ⟨_, rfl, rfl, .inl ⟨evs, now, code, rfl, hgr, rfl⟩⟩
    · rw [if_neg hret]
      exact ⟨_, rfl, rfl, .inr ⟨hret, href⟩⟩
  unfold openQueue
  cases hr : a.role with
  | publisher => exact Prog.meets_bind.mpr ((createPublisher_meets a hr).mono hlock)
  | subscriber => exact Prog.meets_bind.mpr ((createSubscriber_meets a hr).mono hlock)
  | other => exact hlock _ 0 ⟨[], rfl, .inl ⟨rfl, .other hr⟩⟩

/-! ## `PushMsg` and `PopMsg` -/

/-- Commands in pairs of an `RPUSH` and an `HSET`. -/
inductive PushPairs : Nat → List Cmd → Prop
  | nil : PushPairs 0 []
  | cons (k d k' f v : Bytes) {n : Nat} {cs : List Cmd} (h : PushPairs n cs) :
      PushPairs (n + 1) (.rpush k d :: .hset k' f v :: cs)

theorem pushPairs_pushCmds (q : CStr) (ty : Int32) (buf : List CStr) (data : Bytes) (now : Nat) :
    PushPairs (if ty = SUB2PUB then buf.length else 1) (pushCmds q ty buf data now) := by
  unfold pushCmds
  split
  · induction buf with
    | nil => exact .nil
    | cons c buf ih => exact .cons _ _ _ _ _ ih
  · exact .cons _ _ _ _ _ .nil

theorem appendAll_meets {α : Type} {Q : Ghost → α → Prop} {cur : Option Call} (cs : List Cmd)
    (k : Unit → QProg α) (pipe : List Cmd) (h : (k ()).Meets proto Q ⟨pipe ++ cs, cur⟩) :
    (appendAll cs >>= k).Meets proto Q ⟨pipe, cur⟩ := by
  induction cs generalizing pipe with
  | nil =>
    rw [List.append_nil] at h
    exact h
  | cons c cs ih =>
    refine meets_append (ih (pipe ++ [c]) ?_)
    rw [List.append_assoc]
    exact h

/-- Where a `PushMsg` is when its reply loop has ended. -/
def Pushed (code data : Bytes) (lock : Ev) (cmds : List Cmd) (g : Ghost) (ret : Int) : Prop :=
  ∃ evs, g = ⟨[], some ⟨.pushMsg code data, lock :: evs⟩⟩ ∧ ret = SUCCESS ∧
    evs.map Ev.cmd? = cmds.map some

theorem pushReplies_meets {code data : Bytes} {now : Nat} {q c : CStr} {ty : Int32}
    {buf : List CStr} {now' : Nat} (total : Nat) {n : Nat} {cs : List Cmd} (hcs : PushPairs n cs)
    (evs : List Ev)
    (hevs : (pushCmds q ty buf data now').map some = evs.map Ev.cmd? ++ cs.map some) :
    (pushReplies total n).Meets proto
      (Pushed code data (.locked now (.pushLock code) (.go q c ty buf))
        (pushCmds q ty buf data now'))
      ⟨cs, some ⟨.pushMsg code data, .locked now (.pushLock code) (.go q c ty buf) :: evs⟩⟩ := by
  induction hcs generalizing evs with
  | nil =>
    refine ⟨evs, rfl, rfl, ?_⟩
    simpa using hevs.symm
  | cons k d k' f v h ih =>
    rename_i m cs
    unfold pushReplies
    refine meets_getReply (.push code data now q c ty buf evs now' _ _ hevs) fun r hr => ?_
    obtain ⟨n₁, rfl⟩ := hr
    simp only [checkReply_of_integer, ne_eq, not_true_eq_false, if_false]
    have hevs' : (pushCmds q ty buf data now').map some =
        (evs ++ [Ev.redis (.rpush k d) (.integer n₁)]).map Ev.cmd? ++
          some (.hset k' f v) :: cs.map some := by
      simpa [Ev.cmd?] using hevs
    refine meets_getReply (.push code data now q c ty buf _ now' _ _ hevs') fun r hr => ?_
    have hint : ∃ n₂ : Int, r = .integer n₂ := by
      rcases hr with rfl | rfl
      · exact ⟨0, rfl⟩
      · exact ⟨1, rfl⟩
    obtain ⟨n₂, rfl⟩ := hint
    simp only [checkReply_of_integer, not_true_eq_false, if_false]
    refine ih _ ?_
    simpa [Ev.cmd?] using hevs'

theorem pushMsg_meets (code data : Bytes) :
    (callProg (.pushMsg code data)).Meets proto (Ends (.pushMsg code data))
      ⟨[], some ⟨.pushMsg code data, []⟩⟩ := by
  show (pushMsg code data >>= fun ret => return (ret, none)).Meets _ _ _
  rw [Prog.meets_bind]
  unfold pushMsg
  refine meets_locked (.pushLock code data) fun now r hgives => ?_
  cases r with
  | fail ret =>
    have hne : ret ≠ SUCCESS := by
      obtain ⟨now, u, m, m', hrun⟩ := hgives
      simp only [Section.run, Option.some.injEq] at hrun
      rcases m.pushLock_cases now code with ⟨ret', hne, hl, -⟩ | ⟨item, queue, -, -, hl⟩
      · rw [hl] at hrun
        cases hrun
        exact hne
      · rw [hl] at hrun
        split at hrun
        · cases hrun
        · cases hrun
    exact ⟨_, rfl, rfl, fun h => absurd h hne,
      fun _ => ⟨now, .fail ret, rfl, fun _ _ _ _ h => by cases h⟩⟩
  | limit =>
    exact ⟨_, rfl, rfl, fun h => absurd h (by decide),
      fun _ => ⟨now, .limit, rfl, fun _ _ _ _ h => by cases h⟩⟩
  | go q c ty buf =>
    simp only
    by_cases hnone : ty = SUB2PUB ∧ buf.length = 0
    · rw [if_pos hnone]
      refine ⟨_, rfl, rfl, fun _ => ⟨now, q, c, ty, buf, 0, [], rfl, ?_⟩, fun h => absurd rfl h⟩
      have hbuf : buf = [] := List.length_eq_zero_iff.mp hnone.2
      simp [pushCmds, hnone.1, hbuf]
    · rw [if_neg hnone]
      refine meets_time fun now' => appendAll_meets _ _ _ ?_
      refine Prog.Meets.mono ?_
        (pushReplies_meets _ (pushPairs_pushCmds q ty buf data now') [] rfl)
      rintro g ret ⟨evs, rfl, rfl, hevs⟩
      exact ⟨_, rfl, rfl, fun _ => ⟨now, q, c, ty, buf, now', evs, rfl, hevs⟩,
        fun h => absurd rfl h⟩

theorem popMsg_meets (code : Bytes) :
    (popMsg code).Meets proto (Ends (.popMsg code)) ⟨[], some ⟨.popMsg code, []⟩⟩ := by
  unfold popMsg
  refine meets_locked (.popLock code) fun now r hgives => ?_
  cases r with
  | fail ret =>
    refine ⟨_, rfl, rfl, .inl ⟨?_, rfl, now, ret, rfl⟩⟩
    obtain ⟨now, u, m, m', hrun⟩ := hgives
    simp only [Section.run, Option.some.injEq] at hrun
    rcases m.popLock_cases now code with ⟨ret', hne, hl, -⟩ | ⟨item, queue, -, -, hl⟩
    · rw [hl] at hrun
      cases hrun
      exact hne
    · rw [hl] at hrun
      cases hrun
  | go q c ty =>
    refine meets_time fun now' => ?_
    have hkeys : (if ty = SUB2PUB then
          (getSubQueueMetaName q.bytes, getQueueSubName q.bytes c.bytes, c.bytes)
        else (getQueueMetaName q.bytes, getQueueMsgName q.bytes, ascii "lastvisit")) =
        ((if ty = SUB2PUB then getSubQueueMetaName q.bytes else getQueueMetaName q.bytes),
          popList q c ty, if ty = SUB2PUB then c.bytes else ascii "lastvisit") := by
      unfold popList
      split
      · rfl
      · rfl
    have hvisit : (Cmd.hset
        (if ty = SUB2PUB then getSubQueueMetaName q.bytes else getQueueMetaName q.bytes)
        (if ty = SUB2PUB then c.bytes else ascii "lastvisit")
        (fmtInt (Int32.ofNat now').toInt)) = popVisit q c ty now' := by
      unfold popVisit
      split
      · rfl
      · rfl
    simp only [hkeys, hvisit]
    refine meets_append (meets_append ?_)
    refine meets_getReply_short (.pop code now q c ty) fun r hr hshort => ?_
    rcases hr with rfl | ⟨d, rfl⟩
    · -- an empty list: the reply of the `HSET` is drained
      have hret : checkReply (some .nil) .string (-1) true = NO_EXIST := rfl
      simp only [hret]
      rw [if_pos (by decide)]
      refine meets_getReply (.popVisit code now q c ty _ now') fun r' _ => ?_
      exact ⟨_, rfl, rfl, .inr ⟨now, q, c, ty, _, now', r', rfl, .inl ⟨rfl, rfl⟩⟩⟩
    · simp only [checkReply_of_string, ne_eq, not_true_eq_false, if_false]
      refine meets_getReply (.popVisit code now q c ty _ now') fun r' hr' => ?_
      have hint : ∃ n : Int, r' = .integer n := by
        unfold popVisit at hr'
        split at hr'
        · rcases hr' with rfl | rfl
          · exact ⟨0, rfl⟩
          · exact ⟨1, rfl⟩
        · rcases hr' with rfl | rfl
          · exact ⟨0, rfl⟩
          · exact ⟨1, rfl⟩
      obtain ⟨n, rfl⟩ := hint
      simp only [checkReply_of_integer, not_true_eq_false, if_false]
      rw [if_neg (not_unserialize_neg hshort)]
      exact ⟨_, rfl, rfl, .inr ⟨now, q, c, ty, _, now', _, rfl, .inr ⟨d, rfl, rfl⟩⟩⟩

/-! ## `LoadQueueMeta` -/

/-- A `LoadQueues` that has read more since `evs`, with nothing left in its pipeline. -/
def Loading (ev : Ev) (evs : List Ev) (P : List Ev → Prop) (g : Ghost) : Prop :=
  ∃ more, g = ⟨[], some ⟨.loadQueueMeta, ev :: evs ++ more⟩⟩ ∧ (∀ e ∈ evs ++ more, e.IsRead) ∧
    P (evs ++ more)

theorem Loading.after {ev e : Ev} {evs : List Ev} {P : List Ev → Prop} {g : Ghost}
    (h : Loading ev (evs ++ [e]) P g) : Loading ev evs P g := by
  obtain ⟨more, rfl, hread, hP⟩ := h
  refine ⟨e :: more, by simp, ?_⟩
  rw [List.append_assoc] at hread hP
  exact ⟨hread, hP⟩

/-- One more reading command. -/
theorem isRead_concat {evs : List Ev} (h : ∀ e ∈ evs, e.IsRead) {c : Cmd} (hc : Reads c)
    (r : Reply) : ∀ e ∈ evs ++ [.redis c r], e.IsRead := by
  intro e he
  rcases List.mem_append.mp he with he | he
  · exact h e he
  · exact ⟨c, r, List.mem_singleton.mp he, hc⟩

theorem loadClients_pairs (h : List (Bytes × Bytes)) :
    loadClients (pairs h).elements = .ok (h.map fun fv => ⟨CStr.ofBytes fv.1, 0, atol fv.2⟩) := by
  induction h with
  | nil => rfl
  | cons fv h ih =>
    have hel : (pairs (fv :: h)).elements =
        .string fv.1 :: .string fv.2 :: (pairs h).elements := rfl
    rw [hel, loadClients, ih]
    simp [Except.map, Reply.str]

theorem loadCounts_meets {ev : Ev} (name : Bytes) (size : Nat) (l : List SubQueue)
    (evs : List Ev) (hread : ∀ e ∈ evs, e.IsRead) :
    (loadCounts size l).Meets proto
      (fun g r => ∃ l', r = .ok l' ∧ l'.map SubQueue.client = l.map SubQueue.client ∧
        Loading ev evs (fun _ => True) g)
      ⟨l.map fun sub => .llen (cStr (getQueueSubName name sub.client.bytes)),
        some ⟨.loadQueueMeta, ev :: evs⟩⟩ := by
  induction l generalizing evs with
  | nil => exact ⟨[], rfl, rfl, [], by simp, by simpa using hread, trivial⟩
  | cons sub rest ih =>
    unfold loadCounts
    refine meets_getReply (.load ev evs hread _ (.subMsgs _ _)) fun r hr => ?_
    obtain ⟨n, rfl⟩ := hr
    simp only [checkReply_of_integer, ne_eq, not_true_eq_false, if_false]
    rw [Prog.meets_bind]
    refine Prog.Meets.mono ?_ (ih (evs ++ [_]) (isRead_concat hread (.subMsgs _ _) _))
    rintro g r ⟨l', rfl, hmap, hload⟩
    exact ⟨_, rfl, by simp [hmap], hload.after⟩

theorem loadSubscribers_meets {ev : Ev} (queue : Queue) (name : CStr) (evs : List Ev)
    (hread : ∀ e ∈ evs, e.IsRead)
    (hmeta : ∃ q₀ q₁ h, Ev.redis (.hgetall (getQueueMetaName name.bytes)) h ∈ evs ∧
      getQueueValue q₀ h = some q₁ ∧ queue.option = q₁.option) :
    (loadSubscribers queue).Meets proto
      (fun g r => ∃ queue', r = .ok queue' ∧
        Loading ev evs (fun evs' => ReadQueue evs' name queue') g)
      ⟨[], some ⟨.loadQueueMeta, ev :: evs⟩⟩ := by
  unfold loadSubscribers
  refine meets_append ?_
  refine meets_getReply (.load ev evs hread _ (.subs _)) fun r hr => ?_
  obtain ⟨h, rfl⟩ := hr
  simp only [checkReply_of_array, ne_eq, not_true_eq_false, if_false]
  rw [if_neg (by simp [Reply.type])]
  have hl := loadClients_pairs h
  simp only [pairs] at hl
  simp only [hl]
  refine appendAll_meets _ _ _ ?_
  rw [Prog.meets_bind]
  refine Prog.Meets.mono ?_ (loadCounts_meets queue.option.msgQueueName _ _ (evs ++ [_])
    (isRead_concat hread (.subs _) _))
  rintro g r ⟨l', rfl, hmap', more, rfl, hread', -⟩
  refine ⟨{ queue with clients := l' }, rfl, Loading.after ⟨more, rfl, hread', ?_, fun _ => ?_⟩⟩
  · obtain ⟨q₀, q₁, h', hmem, hval, hopt⟩ := hmeta
    exact ⟨q₀, q₁, h', by simp [hmem], hval, hopt⟩
  · exact ⟨h, by simp [pairs], by simp [hmap']⟩

/-- One turn of the loop: the element is read, or `LoadQueues` gives up. -/
theorem loadQueue_meets {ev : Ev} (tmp : CStr → Option Queue) (name : Bytes) (evs : List Ev)
    (hread : ∀ e ∈ evs, e.IsRead) :
    (loadQueue tmp (.string name)).Meets proto
      (fun g r => Loading ev evs
        (fun evs' => ∀ queue, r = .ok queue → ReadQueue evs' (CStr.ofBytes name) queue) g)
      ⟨[], some ⟨.loadQueueMeta, ev :: evs⟩⟩ := by
  unfold loadQueue
  simp only [checkReply_of_string, ne_eq, not_true_eq_false, if_false]
  refine meets_append (meets_append ?_)
  refine meets_getReply (.load ev evs hread _ (.metadata _)) fun r hr => ?_
  obtain ⟨h, rfl⟩ := hr
  simp only [checkReply_of_array, not_true_eq_false, if_false]
  let e₁ : Ev := .redis (.hgetall (getQueueMetaName (CStr.ofBytes name).bytes)) (pairs h)
  have hread₁ := isRead_concat hread (.metadata (CStr.ofBytes name).bytes) (pairs h)
  refine meets_getReply (.load ev (evs ++ [e₁]) hread₁ _ (.msgs _)) fun r hr => ?_
  obtain ⟨n, rfl⟩ := hr
  simp only [checkReply_of_integer, not_true_eq_false, if_false]
  let e₂ : Ev := .redis (.llen (getQueueMsgName (CStr.ofBytes name).bytes)) (.integer n)
  have hread₂ := isRead_concat hread₁ (.msgs (CStr.ofBytes name).bytes) (.integer n)
  have happ : evs ++ [e₁, e₂] = evs ++ [e₁] ++ [e₂] := by simp
  split
  · exact ⟨[e₁, e₂], by simp [Call.did, e₁, e₂, Reply.str, pairs], happ ▸ hread₂,
      fun queue hq => by cases hq⟩
  · rename_i queue hval
    have hmeta : ∃ q₀ q₁ h', Ev.redis (.hgetall (getQueueMetaName (CStr.ofBytes name).bytes)) h' ∈
        evs ++ [e₁] ++ [e₂] ∧ getQueueValue q₀ h' = some q₁ ∧ queue.option = q₁.option :=
      ⟨_, queue, pairs h, by simp [e₁], hval, rfl⟩
    by_cases hty : queue.option.msgType = SUB2PUB
    · rw [if_pos hty]
      refine Prog.Meets.mono ?_ (loadSubscribers_meets
        { queue with msgCount := toSize (Reply.integer n).toInt } (CStr.ofBytes name)
        (evs ++ [e₁] ++ [e₂]) hread₂ hmeta)
      rintro g r ⟨queue', rfl, more, rfl, hread', hq'⟩
      refine Loading.after (Loading.after ⟨more, rfl, hread', fun queue₁ hq => ?_⟩)
      cases hq
      exact hq'
    · rw [if_neg hty]
      refine ⟨[e₁, e₂], by simp [Call.did, e₁, e₂, Reply.str, pairs], happ ▸ hread₂,
        fun queue₁ hq => ?_⟩
      cases hq
      refine ⟨?_, fun h => absurd h hty⟩
      rw [List.append_assoc] at hmeta
      exact hmeta

/-- More reading keeps what was read. -/
theorem ReadAll.mono {evs evs' : List Ev} {names : List Bytes} {tmp : CStr → Option Queue}
    (h : ReadAll evs names tmp) (hsub : ∀ ev ∈ evs, ev ∈ evs') : ReadAll evs' names tmp := by
  refine ⟨h.all, fun name queue hq => ⟨(h.only name queue hq).1, ?_⟩⟩
  obtain ⟨⟨q₀, q₁, r, hr, hval, hopt⟩, hsubs⟩ := (h.only name queue hq).2
  refine ⟨⟨q₀, q₁, r, hsub _ hr, hval, hopt⟩, fun hty => ?_⟩
  obtain ⟨hs, hmem, hcl⟩ := hsubs hty
  exact ⟨hs, hsub _ hmem, hcl⟩

theorem ReadAll.update {evs : List Ev} {names : List Bytes} {tmp : CStr → Option Queue}
    (h : ReadAll evs names tmp) {name : Bytes} {queue : Queue}
    (hq : ReadQueue evs (CStr.ofBytes name) queue) :
    ReadAll evs (names ++ [name]) (Function.update tmp (CStr.ofBytes name) (some queue)) := by
  constructor
  · intro n hn
    by_cases hc : CStr.ofBytes n = CStr.ofBytes name
    · rw [hc, Function.update_self]
      rfl
    · rw [Function.update_of_ne hc]
      rcases List.mem_append.mp hn with hn | hn
      · exact h.all n hn
      · rw [List.mem_singleton.mp hn] at hc
        exact absurd rfl hc
  · intro n q hn
    by_cases hc : n = CStr.ofBytes name
    · subst hc
      rw [Function.update_self] at hn
      cases hn
      exact ⟨⟨name, by simp, rfl⟩, hq⟩
    · rw [Function.update_of_ne hc] at hn
      obtain ⟨⟨n', hn', hne⟩, hread⟩ := h.only n q hn
      exact ⟨⟨n', List.mem_append_left _ hn', hne⟩, hread⟩

/-- The loop, with `rest` still to be read. -/
theorem loadLoop_meets {names : List Bytes} (rest seen : List Bytes) (hnames : names = seen ++ rest)
    (tmp : CStr → Option Queue) (evs : List Ev) (hall : ReadAll evs seen tmp)
    (hread : ∀ e ∈ evs, e.IsRead) :
    (loadLoop (rest.map .string) tmp).Meets proto
      (fun g _ => ∃ evs', g = ⟨[], some ⟨.loadQueueMeta, evs'⟩⟩)
      ⟨[], some ⟨.loadQueueMeta,
        .redis (.smembers allQueueName) (.array (names.map .string)) :: evs⟩⟩ := by
  induction rest generalizing seen tmp evs with
  | nil =>
    rw [List.append_nil] at hnames
    subst hnames
    refine meets_locked (.swapQueues names evs tmp hall hread) fun now r _ => ?_
    exact ⟨_, rfl⟩
  | cons name rest ih =>
    rw [List.map_cons, loadLoop, Prog.meets_bind]
    refine Prog.Meets.mono ?_ (loadQueue_meets tmp name evs hread)
    rintro g r ⟨more, rfl, hread', hq⟩
    cases r with
    | error ret => exact ⟨_, rfl⟩
    | ok queue =>
      refine ih (seen ++ [name]) (by rw [hnames, List.append_assoc]; rfl) _ _ ?_ hread'
      exact (hall.mono fun ev hev => List.mem_append_left _ hev).update (hq queue rfl)

theorem loadQueueMeta_meets :
    (callProg .loadQueueMeta).Meets proto (Ends .loadQueueMeta)
      ⟨[], some ⟨.loadQueueMeta, []⟩⟩ := by
  show (loadQueues >>= fun ret => return (ret, none)).Meets _ _ _
  rw [Prog.meets_bind]
  unfold loadQueues
  refine meets_command .names fun rep hrep => ?_
  obtain ⟨names, rfl⟩ := hrep
  simp only [checkReply_of_array, ne_eq, not_true_eq_false, if_false]
  rw [if_neg (by simp [Reply.type])]
  refine Prog.Meets.mono ?_ (loadLoop_meets names [] rfl _ [] ⟨by simp, by simp⟩ (by simp))
  rintro g ret ⟨evs', rfl⟩
  exact ⟨_, rfl, rfl, trivial⟩

/-- **Every call keeps the contract.** -/
theorem callProg_meets (op : Op) :
    (callProg op).Meets proto (Ends op) ⟨[], some ⟨op, []⟩⟩ := by
  cases op with
  | openQueue a => exact openQueue_meets a
  | closeQueue code => exact meets_locked (.closeQueue code) fun _ _ _ => ⟨_, rfl, rfl, trivial⟩
  | pushMsg code data => exact pushMsg_meets code data
  | popMsg code => exact popMsg_meets code
  | loadQueueMeta => exact loadQueueMeta_meets
  | removeExpireMsgQueueCode e =>
    exact meets_locked (.removeExpire e) fun _ _ _ => ⟨_, rfl, rfl, trivial⟩

/-! ## The steps of the server -/

theorem wellKeyed_of_mem_pushCmds {q : CStr} {ty : Int32} {buf : List CStr} {data : Bytes}
    {now : Nat} {cmd : Cmd} (h : cmd ∈ pushCmds q ty buf data now) : WellKeyed cmd := by
  unfold pushCmds at h
  split at h
  · obtain ⟨c, -, hc⟩ := List.mem_flatMap.mp h
    rcases List.mem_pair.mp hc with rfl | rfl
    · rintro k κ ⟨⟩
      exact kindOf_getQueueSubName _ _
    · rintro k κ ⟨⟩
      rfl
  · rcases List.mem_pair.mp h with rfl | rfl
    · rintro k κ ⟨⟩
      rfl
    · rintro k κ ⟨⟩
      rfl

theorem Exec.mem_pushCmds {evs : List Ev} {rest cmds : List Cmd} {cmd : Cmd}
    (h : cmds.map some = evs.map Ev.cmd? ++ some cmd :: rest.map some) : cmd ∈ cmds := by
  have hmem : some cmd ∈ cmds.map some := by
    rw [h]
    simp
  simpa using hmem

/-- Every command goes to a key of its kind. -/
theorem Exec.wellKeyed {call : Call} {c : Cmd} (h : Exec call c) : WellKeyed c := by
  cases h with
  | push code data now q cl ty buf evs now' rest cmd h =>
    exact wellKeyed_of_mem_pushCmds (Exec.mem_pushCmds h)
  | pop code now q cl ty =>
    rintro k κ ⟨⟩
    unfold popList
    split
    · exact kindOf_getQueueSubName _ _
    · rfl
  | popVisit code now q cl ty r now' =>
    unfold Mq.popVisit
    split
    · rintro k κ ⟨⟩
      rfl
    · rintro k κ ⟨⟩
      rfl
  | load ev evs hr c hc =>
    cases hc with
    | subs q =>
      rintro k κ ⟨⟩
      exact kindOf_cStr_getSubQueueMetaName q
    | subMsgs q cl =>
      rintro k κ ⟨⟩
      exact kindOf_cStr_getQueueSubName q cl
    | _ =>
      rintro k κ ⟨⟩
      rfl
  | _ =>
    rintro k κ ⟨⟩
    rfl

/-- The command Redis executes at this action. -/
def World.next (w : World) (t : Tid) : Act → Option Cmd
  | .getReply => (w.pipe t).head?
  | .command c => (w.pipe t ++ [c]).head?
  | _ => none

/-- A step of thread `t` while Redis executes every command: the contract's view of the server. -/
inductive Step (G : Guard Act World Env Op) (w : World) (t : Tid) : World → Prop
  | call (op : Op) (hcur : w.cur t = none) (hg : G.call w t op) :
      Step G w t { w with cur := Function.update w.cur t (some ⟨op, []⟩) }
  | quiet (pipe : Tid → List Cmd) (clock : Nat) : Step G w t { w with pipe := pipe, clock := clock }
  | redis (call : Call) (c : Cmd) (e : Env) (a : Act) (pipe : Tid → List Cmd)
      (hcur : w.cur t = some call) (hex : Exec call c) (hf : c.Fits w.redis)
      (hnext : w.next t a = some c) (hg : G.act w t e a) :
      Step G w t ({ w with redis := (c.exec w.redis).2, pipe := pipe }.did t
        (.redis c (c.exec w.redis).1))
  | locked (call : Call) (s : Section) (e : Env) {r : s.Res} {w' : World}
      (hcur : w.cur t = some call) (hl : Locks call s) (hg : G.act w t e (.locked s))
      (hlock : w.lock t e s = some (r, w')) : Step G w t w'
  | ret (call : Call) (x : Ret) (hcur : w.cur t = some call) (hret : Returns call x) :
      Step G w t { w with
        cur := Function.update w.cur t none, log := w.log ++ [.ret t (some call) x] }

/-- What the contract sees of the threads. -/
def ghost (w : World) (t : Tid) : Ghost := ⟨w.pipe t, w.cur t⟩

/-- One action, seen through the contract. -/
theorem step_of_exec {G : Guard Act World Env Op} {w w' : World} {t : Tid} {e : Env} {a : Act}
    {r : a.Res} (hw : WellTyped w.redis) (hg : G.act w t e a) (hgua : proto.gua (ghost w t) a)
    (hex : w.exec .redis t e a = some (r, w')) :
    Step G w t w' ∧ WellTyped w'.redis ∧ proto.step (ghost w t) a r (ghost w' t) ∧
      ∀ t', t' ≠ t → ghost w' t' = ghost w t' := by
  cases a with
  | append c =>
    cases hex
    refine ⟨.quiet _ w.clock, hw, ?_, fun t' ht => ?_⟩
    · simp [proto, ghost, World.append]
    · simp [ghost, World.append, ht]
  | getReply =>
    obtain ⟨call, c, cs, hcur, hpipe, hx⟩ := hgua
    obtain ⟨c', cs', hp, rfl, rfl⟩ := World.answer_eq hex
    cases hpipe.symm.trans hp
    have hf := hw.fits hx.wellKeyed
    refine ⟨.redis call c e .getReply _ hcur hx hf (by simp [World.next, hp]) hg,
      hw.exec hx.wellKeyed, ⟨c, cs, _, hp, rfl, Cmd.replyOk_exec hf, World.answer_short hex, ?_⟩,
      fun t' ht => ?_⟩
    · simp [ghost, World.did, Ghost.did]
    · simp [ghost, World.did, ht]
  | command c =>
    obtain ⟨call, hcur, hpipe, hx⟩ := hgua
    have hpipe' : w.pipe t = [] := hpipe
    obtain ⟨c', cs', hp, rfl, rfl⟩ := World.answer_eq hex
    have hc : c' = c ∧ cs' = [] := by simpa [World.append, hpipe', eq_comm] using hp
    obtain ⟨rfl, rfl⟩ := hc
    have hf := hw.fits hx.wellKeyed
    refine ⟨.redis call c' e (.command c') _ hcur hx hf (by simp [World.next, hpipe']) hg,
      hw.exec hx.wellKeyed, ⟨_, rfl, Cmd.replyOk_exec hf, ?_⟩, fun t' ht => ?_⟩
    · simp [ghost, World.did, Ghost.did, hpipe', World.append]
    · simp [ghost, World.did, ht, World.append]
  | time =>
    cases hex
    exact ⟨.quiet w.pipe e.now, hw, rfl, fun t' _ => rfl⟩
  | locked s =>
    obtain ⟨call, hcur, hl⟩ := hgua
    refine ⟨.locked call s e hcur hl hg hex, ?_⟩
    obtain ⟨-, m', hrun, rfl⟩ := World.lock_eq hex
    refine ⟨hw, ⟨e.now, ⟨_, _, _, _, hrun⟩, ?_⟩, fun t' ht => ?_⟩
    · simp [ghost, World.did, Ghost.did]
    · simp [ghost, World.did, ht]

/-- The rule for the contract, with what its steps keep. -/
theorem protocol_rule {G : Guard Act World Env Op} {I : World → Prop}
    (hstep : ∀ w t w', I w → WellTyped w.redis → Step G w t w' → I w') :
    Sys.Rule (server .redis) G proto ghost (fun w => I w ∧ WellTyped w.redis)
      (fun g => g = ⟨[], none⟩) Ends := by
  constructor
  · rintro w t op ⟨hI, hw⟩ hidle hg
    have hcur : w.cur t = none := congrArg Ghost.cur hidle
    have hpipe : w.pipe t = [] := congrArg Ghost.pipe hidle
    refine ⟨⟨hstep w t _ hI hw (.call op hcur hg), hw⟩, ?_, fun t' ht => ?_⟩
    · have hgh : ghost ((server .redis).onCall w t op) t = ⟨[], some ⟨op, []⟩⟩ := by
        simp [ghost, server, hpipe]
      rw [hgh]
      exact callProg_meets op
    · simp [ghost, server, ht]
  · rintro w t e a r w' ⟨hI, hw⟩ hg hgua hex
    obtain ⟨h₁, h₂, h₃, h₄⟩ := step_of_exec hw hg hgua hex
    exact ⟨⟨hstep w t _ hI hw h₁, h₂⟩, h₃, h₄⟩
  · rintro w t op x ⟨hI, hw⟩ ⟨call, hgh, hop, hret⟩
    have hcur : w.cur t = some call := congrArg Ghost.cur hgh
    have hpipe : w.pipe t = [] := congrArg Ghost.pipe hgh
    have hon : (server .redis).onRet w t op x = { w with
        cur := Function.update w.cur t none, log := w.log ++ [.ret t (some call) x] } := by
      simp [server, hcur]
    rw [hon]
    refine ⟨⟨hstep w t _ hI hw (.ret call x hcur hret), hw⟩, ?_, fun t' ht => ?_⟩
    · simp [ghost, hpipe]
    · simp [ghost, ht]

/-- What is left of every call meets the contract. -/
theorem threads_of_reach {G : Guard Act World Env Op} {I : World → Prop} {c₀ c : Conf}
    (hb : Boot c₀) (hst : WellTyped c₀.shared.redis) (h₀ : I c₀.shared)
    (hstep : ∀ w t w', I w → WellTyped w.redis → Step G w t w' → I w')
    (hc : (server .redis).Reach G c₀ c) :
    (I c.shared ∧ WellTyped c.shared.redis) ∧
      ∀ t, Sys.ThreadOk proto (fun g => g = ⟨[], none⟩) Ends (ghost c.shared t) (c.run t) :=
  Sys.Reach.inv (protocol_rule hstep) ⟨h₀, hst⟩
    (fun t => by rw [hb.run]; simp [Sys.ThreadOk, ghost, hb.pipe, hb.cur]) hc

/-- **Every run of the server is a run of contract steps.** What these keep holds in every
configuration reached while Redis executes every command; and between its calls a thread is in no
call. -/
theorem reach_protocol {G : Guard Act World Env Op} {I : World → Prop} {c₀ c : Conf} (hb : Boot c₀)
    (hst : WellTyped c₀.shared.redis) (h₀ : I c₀.shared)
    (hstep : ∀ w t w', I w → WellTyped w.redis → Step G w t w' → I w')
    (hc : (server .redis).Reach G c₀ c) :
    I c.shared ∧ WellTyped c.shared.redis ∧ ∀ t, c.run t = none → c.shared.cur t = none := by
  obtain ⟨⟨hI, hw⟩, hT⟩ := threads_of_reach hb hst h₀ hstep hc
  refine ⟨hI, hw, fun t ht => ?_⟩
  have := hT t
  rw [ht] at this
  exact congrArg Ghost.cur this

/-! ## What a call pushes -/

/-- The lists `PushMsg` pushes to after its locked section. -/
def QueueMgr.PushLock.targets : QueueMgr.PushLock → List Bytes
  | .go queueName _ msgType listBuf =>
    if msgType = SUB2PUB then listBuf.map fun c => getQueueSubName queueName.bytes c.bytes
    else [getQueueMsgName queueName.bytes]
  | _ => []

/-- An `RPUSH`: the list and the message. -/
def rpushOf : Cmd → Option (Bytes × Bytes)
  | .rpush k d => some (k, d)
  | _ => none

def Ev.rpush? (ev : Ev) : Option (Bytes × Bytes) := ev.cmd?.bind rpushOf

theorem rpushOf_pushCmds (q c : CStr) (ty : Int32) (buf : List CStr) (data : Bytes) (now : Nat) :
    (pushCmds q ty buf data now).filterMap rpushOf =
      (QueueMgr.PushLock.go q c ty buf).targets.map fun key => (key, data) := by
  simp only [pushCmds, QueueMgr.PushLock.targets]
  by_cases hty : ty = SUB2PUB
  · rw [if_pos hty, if_pos hty]
    induction buf with
    | nil => rfl
    | cons c buf ih =>
      rw [List.flatMap_cons, List.filterMap_append, List.map_cons, List.map_cons, ih]
      rfl
  · rw [if_neg hty, if_neg hty]
    rfl

/-- The `RPUSH`es among events, from their commands. -/
theorem rpushes_of_cmds {evs : List Ev} {cmds : List Cmd} (h : evs.map Ev.cmd? = cmds.map some) :
    evs.filterMap Ev.rpush? = cmds.filterMap rpushOf := by
  induction evs generalizing cmds with
  | nil =>
    cases cmds with
    | nil => rfl
    | cons c cmds => cases h
  | cons ev evs ih =>
    cases cmds with
    | nil => cases h
    | cons c cmds =>
      rw [List.map_cons, List.map_cons, List.cons.injEq] at h
      have hev : ev.rpush? = rpushOf c := by simp [Ev.rpush?, h.1]
      rw [List.filterMap_cons, List.filterMap_cons, hev, ih h.2]

end Domq.Mq
