import Domq.Mq.Message

/-!
# The worker loop

`QueueProcessor::RunOnce` (`queueprocessor.cpp`): a worker takes a message, finds its type in a
chain of `_PROCESS_MSG` macros, has a result created by name, processes the request and hands the
result to `ConnectionMgr::PushMsg`.

* `CallResults` is how the calls on `QueueMgr` end, whatever that depends on: the `i`-th message's
  call ends as `answers.mgr i` says. It may return, but also run into one of its assertions or wait
  for a reply that never comes (`Domq.Mq.Connector`). `answers.line` stands for the processing of a
  `LineMessage`.
* A `Turn` is how one macro ends: with `continue` after the push, with `break`, with an assertion
  that fails, not at all, or by falling through to the next one.

Result: `runOnce_answers_iff`: a sequence of requests is answered one by one, each with its own type
of result and its own context, exactly if no `CloseMsgQueueRequest` is among them and all calls on
`QueueMgr` return.
-/

namespace Domq.Mq

open Domq.Lib

/-! ## Results -/

/-- A result, with the fields of all result classes. -/
structure Result where
  msgClass : MsgClass
  context : MsgContext
  error : Int32
  errMsg : Bytes
  msgQueueCode : Bytes
  data : Bytes
  line : Bytes

/-- A result as the factory creates it. -/
def Result.new (c : MsgClass) : Result := ⟨c, ⟨[], 0⟩, 0, [], [], [], []⟩

/-- `MsgQueueError`. -/
def msgQueueError (error : Int) : Bytes :=
  if error = 1002 then ascii "MsgQueueErrorNo::ALREADY_EXSIST"
  else if error = NO_EXIST then ascii "MsgQueueErrorNo::NO_EXIST"
  else if error = QUEUECODE_NOEXIST then ascii "MsgQueueErrorNo::QUEUECODE_NOEXIST"
  else if error = 1004 then ascii "MsgQueueErrorNo::ALREADY_OPEN"
  else if error = MSG_LIMIT then ascii "MsgQueueErrorNo::MSG_LIMIT"
  else if error = MSGTYPE_ERROR then ascii "MsgQueueErrorNo::MSGTYPE_ERROR"
  else if error = 1007 then ascii "MsgQueueErrorNo::NO_SUB"
  else if error = 1 then ascii "REDIS_ERR_IO"
  else if error = 2 then ascii "REDIS_ERR_OTHER"
  else if error = 3 then ascii "REDIS_ERR_EOF"
  else if error = 4 then ascii "REDIS_ERR_PROTOCOL"
  else ascii "UNKOWN"

/-! ## `ProcessMsg` -/

/-- `QueueRole(req.role)`. -/
def toRole (role : Int32) : QueueRole :=
  if role = 0 then .subscriber else if role = 1 then .publisher else .other

/-- The call on `QueueMgr` a request leads to. -/
def Request.op : Request → Op
  | .openMsgQueue msgQueueName role create option duration clientName =>
    .openQueue ⟨msgQueueName, option, duration, 0, toRole role, create, clientName⟩
  | .closeMsgQueue msgQueueCode => .closeQueue msgQueueCode.bytes
  | .getMsg msgQueueCode _ => .popMsg msgQueueCode.bytes
  | .sendMsg msgQueueCode msgData => .pushMsg msgQueueCode.bytes msgData.bytes

/-- `ProcessMsg` of an `OpenMsgQueueRequest`, the call having returned `x`. -/
def processOpenMsgQueue (x : Ret) (res : Result) : Int × Result :=
  let res := { res with msgQueueCode := x.2.getD res.msgQueueCode, error := Int32.ofInt x.1 }
  if x.1 = SUCCESS then (0, res)
  else if x.1 = NO_EXIST then (0, { res with errMsg := ascii "msqeueue is not exist" })
  else (0, { res with errMsg := msgQueueError x.1 })

/-- `ProcessMsg` of a `CloseMsgQueueRequest` and of a `SendMsgRequest`. -/
def processStatus (x : Ret) (res : Result) : Int × Result :=
  let res := { res with error := Int32.ofInt x.1 }
  if x.1 ≠ SUCCESS then (0, { res with errMsg := msgQueueError x.1 }) else (0, res)

/-- `ProcessMsg` of a `GetMsgRequest`. -/
def processGetMsg (x : Ret) (res : Result) : Int × Result :=
  if x.1 ≠ SUCCESS then (0, { res with error := Int32.ofInt x.1, errMsg := msgQueueError x.1 })
  else (0, { res with error := Int32.ofInt SUCCESS, data := x.2.getD [] })

/-- How a call ends. -/
inductive CallEnd (α : Type)
  | returns (x : α)
  /-- an assertion fails -/
  | aborts
  /-- `redisGetReply` does not return -/
  | hangs

def CallEnd.map {α β : Type} (f : α → β) : CallEnd α → CallEnd β
  | .returns x => .returns (f x)
  | .aborts => .aborts
  | .hangs => .hangs

/-- A `ProcessMsg`, with how the call in it ends. -/
def CallEnd.process (e : CallEnd Ret) (f : Ret → Result → Int × Result) (res : Result) :
    CallEnd (Int × Result) :=
  e.map fun x => f x res

/-- How the calls made for the messages end. -/
structure CallResults where
  mgr : Nat → CallEnd Ret
  line : Nat → CallEnd (Int × Bytes)

/-! ## `RunOnce` -/

/-- How a `_PROCESS_MSG` ends. -/
inductive Turn
  | push (res : Result)
  | exit
  | abort
  | hang
  | next

/-- A macro behind another: it runs when the other falls through. -/
def Turn.orElse : Turn → (Unit → Turn) → Turn
  | .next, k => k ()
  | t, _ => t

/-- `_PROCESS_MSG(msgName, REQ_TYPE, RES_TYPE)`. -/
def processMsgMacro (m : Message) (reqType resType : MsgClass)
    (processMsg : Result → CallEnd (Int × Result)) : Turn :=
  if m.msgClass.typeName = reqType.typeName then
    match globalMsgFactory.create resType.typeName with
    | none => .abort
    | some c =>
      match processMsg { Result.new c with context := m.context } with
      | .returns (ret, res) => if ret = 0 then .push res else if ret < 0 then .exit else .next
      | .aborts => .abort
      | .hangs => .hang
  else .next

/-- The chain of macros for one message, the `n`-th. -/
def processOne (answers : CallResults) (n : Nat) (m : Message) : Turn :=
  (processMsgMacro m .getMsgRequest .getMsgResult
    ((answers.mgr n).process processGetMsg)).orElse fun _ =>
  (processMsgMacro m .sendMsgRequest .sendMsgResult
    ((answers.mgr n).process processStatus)).orElse fun _ =>
  (processMsgMacro m .openMsgQueueRequest .openMsgQueueResult
    ((answers.mgr n).process processOpenMsgQueue)).orElse fun _ =>
  (processMsgMacro m .closeMsgQueueRequest .closeMsgQueueResult
    ((answers.mgr n).process processStatus)).orElse fun _ =>
  processMsgMacro m .lineMessage .lineMessage fun res =>
    (answers.line n).map fun x => (x.1, { res with line := x.2 })

/-- How a worker stands: in its loop, out of it, dead with the process, or waiting for ever. -/
inductive Status
  | running | ended | aborted | hung
  deriving DecidableEq

/-- `RunOnce` on the messages it takes, the next being the `n`-th: how it stands after them and what
it has handed to `PushMsg`. -/
def runOnce (answers : CallResults) : (n : Nat) → List Message → Status × List Result
  | _, [] => (.running, [])
  | n, m :: ms =>
    match processOne answers n m with
    | .push res =>
      let (status, pushed) := runOnce answers (n + 1) ms
      (status, res :: pushed)
    | .exit => (.ended, [])
    | .abort => (.aborted, [])
    | .hang => (.hung, [])
    | .next => runOnce answers (n + 1) ms

/-! ## Every request is answered once -/

/-- The result type that belongs to a request. -/
def Request.resultClass : Request → MsgClass
  | .openMsgQueue .. => .openMsgQueueResult
  | .closeMsgQueue _ => .closeMsgQueueResult
  | .getMsg _ _ => .getMsgResult
  | .sendMsg _ _ => .sendMsgResult

/-- A request as a message. -/
def Request.message (r : MsgContext × Request) : Message := ⟨r.1, .request r.2⟩

/-- The result belongs to the request. -/
def AnswerTo (r : MsgContext × Request) (res : Result) : Prop :=
  res.msgClass = r.2.resultClass ∧ res.context = r.1

/-- The worker takes the requests and hands over one result for each, in their order; it is still in
its loop. -/
def AnswersAll (answers : CallResults) (rs : List (MsgContext × Request)) : Prop :=
  ∃ pushed, runOnce answers 0 (rs.map Request.message) = (.running, pushed) ∧
    List.Forall₂ AnswerTo rs pushed

/-- A macro for another type falls through. -/
theorem processMsgMacro_next {m : Message} {reqType : MsgClass} (h : m.msgClass ≠ reqType)
    (resType : MsgClass) (f : Result → CallEnd (Int × Result)) :
    processMsgMacro m reqType resType f = .next := by
  unfold processMsgMacro
  rw [if_neg fun hn => h (typeName_injective hn)]

/-- What every `ProcessMsg` of a request does: it returns `0` and keeps type and context. -/
def Processes (f : Result → Int × Result) : Prop :=
  ∀ res, (f res).1 = 0 ∧ (f res).2.msgClass = res.msgClass ∧ (f res).2.context = res.context

/-- The macro of the message's own type, when the result can be created: it hands over what
`ProcessMsg` makes of a new result, if the call returns. -/
theorem processMsgMacro_own {m : Message} (reqType resType : MsgClass) (hm : m.msgClass = reqType)
    (hc : resType ≠ .closeMsgQueueResult) {f : Ret → Result → Int × Result}
    (hf : ∀ x, Processes (f x)) (e : CallEnd Ret) :
    processMsgMacro m reqType resType (e.process f) =
      match e with
      | .returns x => .push (f x { Result.new resType with context := m.context }).2
      | .aborts => .abort
      | .hangs => .hang := by
  unfold processMsgMacro
  rw [hm, if_pos rfl, create_typeName, if_neg hc]
  cases e with
  | returns x =>
    have hret := (hf x { Result.new resType with context := m.context }).1
    simp only [CallEnd.process, CallEnd.map, hret, if_true]
  | aborts => rfl
  | hangs => rfl

theorem processes_openMsgQueue (x : Ret) : Processes (processOpenMsgQueue x) := by
  intro res
  simp only [processOpenMsgQueue]
  split
  · exact ⟨rfl, rfl, rfl⟩
  · split
    · exact ⟨rfl, rfl, rfl⟩
    · exact ⟨rfl, rfl, rfl⟩

theorem processes_status (x : Ret) : Processes (processStatus x) := by
  intro res
  simp only [processStatus]
  split
  · exact ⟨rfl, rfl, rfl⟩
  · exact ⟨rfl, rfl, rfl⟩

theorem processes_getMsg (x : Ret) : Processes (processGetMsg x) := by
  intro res
  unfold processGetMsg
  split
  · exact ⟨rfl, rfl, rfl⟩
  · exact ⟨rfl, rfl, rfl⟩

@[simp] theorem message_msgClass (r : MsgContext × Request) :
    (Request.message r).msgClass = r.2.msgClass := rfl

/-- The result of a request whose call has returned `x`. -/
def Request.result (r : MsgContext × Request) (x : Ret) : Result :=
  match r.2 with
  | .openMsgQueue .. =>
    (processOpenMsgQueue x { Result.new .openMsgQueueResult with context := r.1 }).2
  | .closeMsgQueue _ => (processStatus x { Result.new .closeMsgQueueResult with context := r.1 }).2
  | .getMsg _ _ => (processGetMsg x { Result.new .getMsgResult with context := r.1 }).2
  | .sendMsg _ _ => (processStatus x { Result.new .sendMsgResult with context := r.1 }).2

theorem answerTo_result (r : MsgContext × Request) (x : Ret) : AnswerTo r (Request.result r x) := by
  unfold Request.result AnswerTo
  split
  · next h => exact h ▸ (processes_openMsgQueue x _).2
  · next h => exact h ▸ (processes_status x _).2
  · next h => exact h ▸ (processes_getMsg x _).2
  · next h => exact h ▸ (processes_status x _).2

/-- The result of a `CloseMsgQueueRequest` cannot be created. -/
theorem processOne_close (answers : CallResults) (n : Nat) {r : MsgContext × Request}
    (h : r.2.msgClass = .closeMsgQueueRequest) :
    processOne answers n (Request.message r) = .abort := by
  have hm : (Request.message r).msgClass = .closeMsgQueueRequest := h
  unfold processOne
  rw [processMsgMacro_next (by simp [hm]), processMsgMacro_next (by simp [hm]),
    processMsgMacro_next (by simp [hm])]
  simp only [Turn.orElse, processMsgMacro, hm, create_typeName, if_true]

/-- Any other request is answered if its call returns. -/
theorem processOne_request (answers : CallResults) (n : Nat) {r : MsgContext × Request}
    (h : r.2.msgClass ≠ .closeMsgQueueRequest) :
    processOne answers n (Request.message r) =
      match answers.mgr n with
      | .returns x => .push (Request.result r x)
      | .aborts => .abort
      | .hangs => .hang := by
  obtain ⟨ctx, req⟩ := r
  unfold processOne
  cases req with
  | getMsg code autoReply =>
    rw [processMsgMacro_own .getMsgRequest .getMsgResult rfl (by decide) processes_getMsg]
    cases answers.mgr n <;> rfl
  | sendMsg code data =>
    rw [processMsgMacro_next (by simp [Request.msgClass]),
      processMsgMacro_own .sendMsgRequest .sendMsgResult rfl (by decide) processes_status]
    cases answers.mgr n <;> rfl
  | openMsgQueue =>
    rw [processMsgMacro_next (by simp [Request.msgClass]),
      processMsgMacro_next (by simp [Request.msgClass]),
      processMsgMacro_own .openMsgQueueRequest .openMsgQueueResult rfl (by decide)
        processes_openMsgQueue]
    cases answers.mgr n <;> rfl
  | closeMsgQueue => exact absurd rfl h

/-- **Every request is answered once** exactly if no `CloseMsgQueueRequest` is among them and every
call on `QueueMgr` returns. -/
theorem runOnce_answers_iff (answers : CallResults) (rs : List (MsgContext × Request)) :
    AnswersAll answers rs ↔
      (∀ r ∈ rs, r.2.msgClass ≠ .closeMsgQueueRequest) ∧
        ∀ i < rs.length, ∃ x, answers.mgr i = .returns x := by
  unfold AnswersAll
  suffices h : ∀ n, (∃ pushed, runOnce answers n (rs.map Request.message) = (.running, pushed) ∧
      List.Forall₂ AnswerTo rs pushed) ↔ (∀ r ∈ rs, r.2.msgClass ≠ .closeMsgQueueRequest) ∧
        ∀ i < rs.length, ∃ x, answers.mgr (n + i) = .returns x by
    simpa only [Nat.zero_add] using h 0
  induction rs with
  | nil =>
    intro n
    exact iff_of_true ⟨[], rfl, .nil⟩ (by simp)
  | cons r rs ih =>
    intro n
    rw [List.map_cons, runOnce, List.length_cons, Nat.forall_lt_succ_left, List.forall_mem_cons]
    simp only [Nat.add_zero, ← Nat.add_assoc, Nat.add_right_comm n _ 1]
    by_cases hclose : r.2.msgClass = .closeMsgQueueRequest
    · rw [processOne_close answers n hclose]
      exact iff_of_false (fun ⟨_, hrun, _⟩ => by cases hrun) fun h => h.1.1 hclose
    · rw [processOne_request answers n hclose]
      cases hx : answers.mgr n with
      | aborts | hangs =>
        refine iff_of_false (fun ⟨_, hrun, _⟩ => by cases hrun) fun h => ?_
        obtain ⟨x, hx⟩ := h.2.1
        cases hx
      | returns x =>
        have hrest := ih (n + 1)
        constructor
        · rintro ⟨pushed, hrun, hall⟩
          cases hall with
          | cons hfirst hall =>
            rename_i res' pushed'
            simp only [Prod.mk.injEq, List.cons.injEq] at hrun
            obtain ⟨hnot, hret⟩ := hrest.mp ⟨pushed', Prod.ext hrun.1 hrun.2.2, hall⟩
            exact ⟨⟨hclose, hnot⟩, ⟨x, rfl⟩, hret⟩
        · rintro ⟨⟨-, hnot⟩, -, hret⟩
          obtain ⟨pushed, hrun, hall⟩ := hrest.mpr ⟨hnot, hret⟩
          exact ⟨Request.result r x :: pushed, by simp only [hrun],
            .cons (answerTo_result r x) hall⟩

/-- A `CloseMsgQueueRequest`: its result cannot be created, and the assertion fails. -/
theorem runOnce_not_answers : ¬ ∀ (mgr : Nat → Ret) rs,
    AnswersAll ⟨fun n => .returns (mgr n), fun _ => .returns (0, [])⟩ rs := by
  intro h
  obtain ⟨pushed, hrun, -⟩ :=
    h (fun _ => (0, none)) [(⟨[], 1⟩, .closeMsgQueue ⟨[], by simp⟩)]
  rw [List.map_cons, runOnce, processOne_close _ _ rfl] at hrun
  cases hrun

end Domq.Mq
