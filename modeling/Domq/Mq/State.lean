import Domq.Mq.Keys

/-!
# The state of `QueueMgr` and its locked sections

The members `_rwMutex` protects (`queuemgr.h`) and every section that runs under the mutex
(`queuemgr.cpp`), each as one function from the state before to the state after.

* A `std::map` is a partial function. `_msgCodeSequence` is a list of nodes: an iterator is the
  identity of its node (`SeqItem.node`), which `push_front` chooses fresh and `splice` keeps, so
  `pos->time`, `splice` and `erase(pos)` act on the node with that identity.
* `int` members are `Int32`, `time_t` is `Int`, `time(NULL)` is a natural number of seconds and is
  converted where the source converts it.
* `removeExpireMsgQueueCode` is `none` where the source would dereference `end()` after a failed
  lookup.
* `redisAddr` and the other members no modelled function reads are left out.
-/

namespace Domq.Mq

open Domq.Lib Domq.Redis

/-! ## Constants -/

/-! `MsgQueueErrorNo` (`msgqueueerrno.h`); the functions return a plain `int`. -/

def SUCCESS : Int := 0
def NO_EXIST : Int := 1001
def QUEUECODE_NOEXIST : Int := 1003
def MSG_LIMIT : Int := 1005
def MSGTYPE_ERROR : Int := 1006
def INTERNAL_ERROR : Int := -1

/-! `MSGQUEUETYPE` (`msgqueuemsg.h`); a request may carry any other `int`. -/

def PEER2PEER : Int32 := 0
def SUB2PUB : Int32 := 1

/-- `QueueRole(req.role)`: the enumerators, and the values a request may carry besides. -/
inductive QueueRole
  | subscriber | publisher | other
  deriving DecidableEq

/-! ## Data -/

/-- `QueueOption`. -/
structure QueueOption where
  msgQueueName : Bytes
  msgType : Int32
  duration : Int32
  maxCount : Int32
  deriving DecidableEq

/-- `Queue::SubQueue`. -/
structure SubQueue where
  client : CStr
  msgCount : Nat
  lastVisit : Int
  deriving DecidableEq

/-- `Queue`. -/
structure Queue where
  option : QueueOption
  msgCount : Nat
  lastVisit : Int
  clients : List SubQueue
  deriving DecidableEq

/-- The value-initialised `Queue` that `std::map::operator[]` inserts. -/
def Queue.empty : Queue := ⟨⟨[], 0, 0, 0⟩, 0, 0, []⟩

/-- A node of `_msgCodeSequence` (`tagMsgCodeSeqItem`) with its identity. -/
structure SeqItem where
  node : Nat
  time : Int32
  msgQueueCode : Bytes
  deriving DecidableEq

/-- `tagMsgCode2QueueItem`; `pos` is the identity of the node the iterator points at. -/
structure CodeItem where
  queueName : CStr
  clientName : CStr
  pos : Nat
  deriving DecidableEq

/-- The members of `QueueMgr` under `_rwMutex`. -/
structure QueueMgr where
  /-- `_name2Queue` -/
  name2Queue : CStr → Option Queue
  /-- `_msgQueueCode2QueueName` -/
  msgQueueCode2QueueName : Bytes → Option CodeItem
  /-- `_msgCodeSequence`, front first -/
  msgCodeSequence : List SeqItem
  /-- `_client2MsgCode`, keyed by client and queue -/
  client2MsgCode : CStr × CStr → Option Bytes
  /-- the identity of the next node to be allocated -/
  nextNode : Nat
  /-- `_removeOnceCount` -/
  removeOnceCount : Int32

/-- `uuid_t`. -/
structure Uuid where
  bytes : Bytes
  length_eq : bytes.length = 16
  deriving DecidableEq

/-- The uuid of sixteen equal bytes. -/
def Uuid.ofByte (b : UInt8) : Uuid := ⟨List.replicate 16 b, List.length_replicate⟩

/-- `GenMsgQueueCode`: the hexadecimal text of the uuid. -/
def genMsgQueueCode (uuid : Uuid) : Bytes := hexText uuid.bytes

/-- The arguments of `OpenQueue`: its `QueueOption`, role, flag and client name. -/
structure OpenArgs where
  msgQueueName : CStr
  msgType : Int32
  duration : Int32
  maxCount : Int32
  role : QueueRole
  create : Int32
  clientName : CStr
  deriving DecidableEq

def OpenArgs.option (a : OpenArgs) : QueueOption :=
  ⟨a.msgQueueName.bytes, a.msgType, a.duration, a.maxCount⟩

/-! ## The list of sessions -/

/-- `pos->time = t`. -/
def setTime (pos : Nat) (t : Int32) (l : List SeqItem) : List SeqItem :=
  l.map fun it => if it.node = pos then { it with time := t } else it

/-- `splice(begin(), l, pos, next)`. -/
def splice (pos : Nat) (l : List SeqItem) : List SeqItem :=
  (l.filter fun it => it.node = pos) ++ l.filter fun it => it.node ≠ pos

/-- `erase(pos)`. -/
def eraseNode (pos : Nat) (l : List SeqItem) : List SeqItem := l.filter fun it => it.node ≠ pos

/-- `begin()`, as the identity of the first node. -/
def beginNode (l : List SeqItem) : Option Nat := l.head?.map SeqItem.node

namespace QueueMgr

/-! ## The locked sections -/

/-- `GetQueueName` once session and queue are found: the queue is visited, and the session's node
gets the time and moves to the front. -/
def touch (now : Nat) (msgQueueCode : Bytes) (item : CodeItem) (queue : Queue) (m : QueueMgr) :
    QueueMgr :=
  let name2Queue := Function.update m.name2Queue item.queueName
    (some { queue with lastVisit := now })
  let seq := setTime item.pos (Int32.ofNat now) m.msgCodeSequence
  if beginNode seq = some item.pos then
    { m with name2Queue := name2Queue, msgCodeSequence := seq }
  else
    let seq' := splice item.pos seq
    { m with
      name2Queue := name2Queue
      msgCodeSequence := seq'
      msgQueueCode2QueueName := Function.update m.msgQueueCode2QueueName msgQueueCode
        (some { item with pos := (beginNode seq').getD item.pos }) }

/-- `GetQueueName`, called with the mutex held. -/
def getQueueName (now : Nat) (msgQueueCode : Bytes) (m : QueueMgr) :
    Except Int (CStr × CStr) × QueueMgr :=
  match m.msgQueueCode2QueueName msgQueueCode with
  | none => (.error QUEUECODE_NOEXIST, m)
  | some item =>
    match m.name2Queue item.queueName with
    | none => (.error NO_EXIST, m)
    | some queue => (.ok (item.queueName, item.clientName), m.touch now msgQueueCode item queue)

/-- The test by which `PushMsg` refuses a message. -/
def full (queue : Queue) : Prop :=
  0 < queue.option.maxCount ∧ queue.option.maxCount ≤ Int32.ofNat queue.msgCount

instance (queue : Queue) : Decidable (full queue) := inferInstanceAs (Decidable (_ ∧ _))

/-- What `PushMsg` takes out of its locked section. -/
inductive PushLock
  | fail (ret : Int)
  | limit
  | go (queueName clientName : CStr) (msgType : Int32) (listBuf : List CStr)
  deriving DecidableEq

/-- The locked section of `PushMsg`. -/
def pushLock (now : Nat) (msgQueueCode : Bytes) (m : QueueMgr) : PushLock × QueueMgr :=
  match m.getQueueName now msgQueueCode with
  | (.error ret, m') => (.fail ret, m')
  | (.ok (queueName, clientName), m') =>
    match m'.name2Queue queueName with
    | none => (.fail INTERNAL_ERROR, m') -- the assertion; see `pushLock_cases`
    | some queue =>
      if full queue then (.limit, m')
      else
        (.go queueName clientName queue.option.msgType (queue.clients.map SubQueue.client), m')

/-- What `PopMsg` takes out of its locked section. -/
inductive PopLock
  | fail (ret : Int)
  | go (queueName clientName : CStr) (msgType : Int32)
  deriving DecidableEq

/-- The locked section of `PopMsg`. -/
def popLock (now : Nat) (msgQueueCode : Bytes) (m : QueueMgr) : PopLock × QueueMgr :=
  match m.getQueueName now msgQueueCode with
  | (.error ret, m') => (.fail ret, m')
  | (.ok (queueName, clientName), m') =>
    match m'.name2Queue queueName with
    | none => (.fail INTERNAL_ERROR, m') -- the assertion; see `popLock_cases`
    | some queue => (.go queueName clientName queue.option.msgType, m')

/-- The locked section of `CreateSubscriber`: `_name2Queue[name].clients.push_back(..)`. -/
def addClient (now : Nat) (queueName clientName : CStr) (m : QueueMgr) : QueueMgr :=
  let queue := (m.name2Queue queueName).getD Queue.empty
  { m with
    name2Queue := Function.update m.name2Queue queueName
      (some { queue with clients := queue.clients ++ [⟨clientName, 0, now⟩] }) }

/-- The locked section of `OpenQueue`. -/
def openLock (now : Nat) (uuid : Uuid) (a : OpenArgs) (m : QueueMgr) : Bytes × QueueMgr :=
  let code := genMsgQueueCode uuid
  let queue :=
    match m.name2Queue a.msgQueueName with
    | none => { Queue.empty with option := a.option, msgCount := 0, lastVisit := now }
    | some queue => { queue with lastVisit := now }
  (code,
    { m with
      msgCodeSequence := ⟨m.nextNode, Int32.ofNat now, code⟩ :: m.msgCodeSequence
      msgQueueCode2QueueName := Function.update m.msgQueueCode2QueueName code
        (some ⟨a.msgQueueName, a.clientName, m.nextNode⟩)
      name2Queue := Function.update m.name2Queue a.msgQueueName (some queue)
      client2MsgCode := Function.update m.client2MsgCode (a.clientName, a.msgQueueName) (some code)
      nextNode := m.nextNode + 1 })

/-- `CloseQueue`. -/
def closeQueue (msgQueueCode : Bytes) (m : QueueMgr) : Int × QueueMgr :=
  match m.msgQueueCode2QueueName msgQueueCode with
  | none => (QUEUECODE_NOEXIST, m)
  | some item =>
    (SUCCESS,
      { m with
        client2MsgCode := Function.update m.client2MsgCode (item.clientName, item.queueName) none
        msgCodeSequence := eraseNode item.pos m.msgCodeSequence
        msgQueueCode2QueueName := Function.update m.msgQueueCode2QueueName msgQueueCode none })

/-- The loop of `RemoveExpireMsgQueueCode` over the nodes from the back: how many nodes it passes,
and the maps it leaves. -/
def removeExpireLoop (expireTime : Int) : List SeqItem → Int → QueueMgr → Option (Nat × QueueMgr)
  | [], _, m => some (0, m)
  | it :: rest, i, m =>
    if i < m.removeOnceCount.toInt then
      if expireTime ≤ it.time.toInt then some (0, m)
      else
        match m.msgQueueCode2QueueName it.msgQueueCode with
        | none => none
        | some item =>
          (removeExpireLoop expireTime rest (i + 1)
            { m with
              client2MsgCode := Function.update m.client2MsgCode
                (item.clientName, item.queueName) none
              msgQueueCode2QueueName :=
                Function.update m.msgQueueCode2QueueName it.msgQueueCode none }).map
            fun nm => (nm.1 + 1, nm.2)
    else some (0, m)

/-- `RemoveExpireMsgQueueCode`. -/
def removeExpireMsgQueueCode (expireTime : Int) (m : QueueMgr) : Option QueueMgr :=
  (removeExpireLoop expireTime m.msgCodeSequence.reverse 0 m).map fun nm =>
    { nm.2 with
      msgCodeSequence := m.msgCodeSequence.take (m.msgCodeSequence.length - nm.1) }

end QueueMgr

/-! ## Sections as data -/

open QueueMgr in
/-- The sections `_rwMutex` protects, with their arguments. -/
inductive Section
  | pushLock (msgQueueCode : Bytes)
  | popLock (msgQueueCode : Bytes)
  | addClient (queueName clientName : CStr)
  | openLock (a : OpenArgs)
  | closeQueue (msgQueueCode : Bytes)
  | swapQueues (name2Queue : CStr → Option Queue)
  | removeExpireMsgQueueCode (expireTime : Int)

namespace Section

/-- What a section hands out. -/
@[reducible] def Res : Section → Type
  | .pushLock _ => QueueMgr.PushLock
  | .popLock _ => QueueMgr.PopLock
  | .addClient _ _ => Unit
  | .openLock _ => Bytes
  | .closeQueue _ => Int
  | .swapQueues _ => Unit
  | .removeExpireMsgQueueCode _ => Unit

/-- Whether a section calls `uuid_generate`. -/
def takesUuid : Section → Bool
  | .openLock _ => true
  | _ => false

/-- A section under the lock, at time `now`, with the uuid `uuid_generate` would give. -/
def run (now : Nat) (uuid : Uuid) (m : QueueMgr) : (s : Section) → Option (s.Res × QueueMgr)
  | .pushLock code => some (m.pushLock now code)
  | .popLock code => some (m.popLock now code)
  | .addClient q c => some ((), m.addClient now q c)
  | .openLock a => some (m.openLock now uuid a)
  | .closeQueue code => some (m.closeQueue code)
  | .swapQueues n => some ((), { m with name2Queue := n })
  | .removeExpireMsgQueueCode e => (m.removeExpireMsgQueueCode e).map fun m' => ((), m')

end Section

/-! ## What the sections do -/

namespace QueueMgr

variable (now : Nat) (code : Bytes) (item : CodeItem) (queue : Queue) (m : QueueMgr)

@[simp] theorem touch_name2Queue : (m.touch now code item queue).name2Queue =
    Function.update m.name2Queue item.queueName (some { queue with lastVisit := now }) := by
  simp only [touch]
  split
  · rfl
  · rfl

@[simp] theorem touch_removeOnceCount :
    (m.touch now code item queue).removeOnceCount = m.removeOnceCount := by
  simp only [touch]
  split
  · rfl
  · rfl

@[simp] theorem touch_nextNode : (m.touch now code item queue).nextNode = m.nextNode := by
  simp only [touch]
  split
  · rfl
  · rfl

/-- A lookup changes no session but for the position of its own. -/
theorem touch_session (h : m.msgQueueCode2QueueName code = some item) (code' : Bytes) :
    ((m.touch now code item queue).msgQueueCode2QueueName code').map
        (fun i => (i.queueName, i.clientName)) =
      (m.msgQueueCode2QueueName code').map fun i => (i.queueName, i.clientName) := by
  simp only [touch]
  split
  · rfl
  · by_cases hc : code' = code
    · subst hc
      simp [h]
    · simp [Function.update_of_ne hc]

theorem getQueueName_cases :
    (∃ ret, ret ≠ SUCCESS ∧ m.getQueueName now code = (.error ret, m) ∧
      ∀ item, m.msgQueueCode2QueueName code = some item → m.name2Queue item.queueName = none) ∨
    ∃ item queue, m.msgQueueCode2QueueName code = some item ∧
      m.name2Queue item.queueName = some queue ∧
      m.getQueueName now code =
        (.ok (item.queueName, item.clientName), m.touch now code item queue) := by
  unfold getQueueName
  cases hi : m.msgQueueCode2QueueName code with
  | none =>
    refine .inl ⟨QUEUECODE_NOEXIST, by decide, rfl, ?_⟩
    intro item h
    cases h
  | some item =>
    cases hq : m.name2Queue item.queueName with
    | none =>
      refine .inl ⟨NO_EXIST, by decide, by simp only [hq], ?_⟩
      intro item' h
      cases h
      exact hq
    | some queue => exact .inr ⟨item, queue, rfl, hq, by simp only [hq]⟩

/-- What `PushMsg` does under the lock; the assertion that the queue is cached holds. -/
theorem pushLock_cases :
    (∃ ret, ret ≠ SUCCESS ∧ m.pushLock now code = (.fail ret, m) ∧
      ∀ item, m.msgQueueCode2QueueName code = some item → m.name2Queue item.queueName = none) ∨
    ∃ item queue, m.msgQueueCode2QueueName code = some item ∧
      m.name2Queue item.queueName = some queue ∧
      m.pushLock now code =
        (if full queue then .limit
          else .go item.queueName item.clientName queue.option.msgType
            (queue.clients.map SubQueue.client), m.touch now code item queue) := by
  rcases m.getQueueName_cases now code with ⟨ret, hne, he, hnone⟩ | ⟨item, queue, hi, hq, he⟩
  · refine .inl ⟨ret, hne, ?_, hnone⟩
    unfold pushLock
    rw [he]
  · refine .inr ⟨item, queue, hi, hq, ?_⟩
    unfold pushLock
    rw [he]
    simp only [touch_name2Queue, Function.update_self]
    by_cases hf : full queue
    · have hf' : full { queue with lastVisit := now } := hf
      rw [if_pos hf, if_pos hf']
    · have hf' : ¬ full { queue with lastVisit := now } := hf
      rw [if_neg hf, if_neg hf']

/-- What holds before the section of `PushMsg`, and after a lookup, holds after the section. -/
theorem pushLock_keeps {I : QueueMgr → Prop} (h : I m)
    (htouch : ∀ item queue, m.msgQueueCode2QueueName code = some item →
      m.name2Queue item.queueName = some queue → I (m.touch now code item queue)) :
    I (m.pushLock now code).2 := by
  rcases m.pushLock_cases now code with ⟨ret, -, hl, -⟩ | ⟨item, queue, hi, hq, hl⟩
  · rw [hl]
    exact h
  · rw [hl]
    exact htouch item queue hi hq

/-- What `PopMsg` does under the lock; the assertion that the queue is cached holds. -/
theorem popLock_cases :
    (∃ ret, ret ≠ SUCCESS ∧ m.popLock now code = (.fail ret, m) ∧
      ∀ item, m.msgQueueCode2QueueName code = some item → m.name2Queue item.queueName = none) ∨
    ∃ item queue, m.msgQueueCode2QueueName code = some item ∧
      m.name2Queue item.queueName = some queue ∧
      m.popLock now code =
        (.go item.queueName item.clientName queue.option.msgType,
          m.touch now code item queue) := by
  rcases m.getQueueName_cases now code with ⟨ret, hne, he, hnone⟩ | ⟨item, queue, hi, hq, he⟩
  · refine .inl ⟨ret, hne, ?_, hnone⟩
    unfold popLock
    rw [he]
  · refine .inr ⟨item, queue, hi, hq, ?_⟩
    unfold popLock
    rw [he]
    simp only [touch_name2Queue, Function.update_self]

/-- What holds before the section of `PopMsg`, and after a lookup, holds after the section. -/
theorem popLock_keeps {I : QueueMgr → Prop} (h : I m)
    (htouch : ∀ item queue, m.msgQueueCode2QueueName code = some item →
      m.name2Queue item.queueName = some queue → I (m.touch now code item queue)) :
    I (m.popLock now code).2 := by
  rcases m.popLock_cases now code with ⟨ret, -, hl, -⟩ | ⟨item, queue, hi, hq, hl⟩
  · rw [hl]
    exact h
  · rw [hl]
    exact htouch item queue hi hq

end QueueMgr

end Domq.Mq
