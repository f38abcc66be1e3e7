import Domq.Mq.System
import Domq.Netmgr.Factory

/-!
# Messages and their factories

The message classes (`msgqueuemsg.h`, `netmgr/message.h`), the two factories and the table through
which `GetGlobalMsgFactory()` finds the one for a class name (`queuemsgfactory.cpp`,
`msgfactory.cpp`, `factory.cpp`), with what `main` registers.

* A factory lists the names it knows (`KnownTypes`) and creates by comparing with the names of its
  own table (`Create`); the two lists are maintained apart.
* Fields of a request are what `JsonDecode` sets; `SendMsgRequest::time`, which nothing sets or
  reads, is left out. Of `MsgContext` the peer's address and message id are modelled.

Result: `create_eq_some_iff`: a name creates the class it names, and `CloseMsgQueueResult` cannot be
created.
-/

namespace Domq.Mq

open Domq.Lib

/-! ## Classes -/

/-- The message classes. -/
inductive MsgClass
  | openMsgQueueRequest | openMsgQueueResult | closeMsgQueueRequest | closeMsgQueueResult
  | getMsgRequest | getMsgResult | sendMsgRequest | sendMsgResult
  | serviceMessage | lineMessage
  deriving DecidableEq

/-- `GetTypeName`. -/
def MsgClass.typeName : MsgClass → Bytes
  | .openMsgQueueRequest => ascii "OpenMsgQueueRequest"
  | .openMsgQueueResult => ascii "OpenMsgQueueResult"
  | .closeMsgQueueRequest => ascii "CloseMsgQueueRequest"
  | .closeMsgQueueResult => ascii "CloseMsgQueueResult"
  | .getMsgRequest => ascii "GetMsgRequest"
  | .getMsgResult => ascii "GetMsgResult"
  | .sendMsgRequest => ascii "SendMsgRequest"
  | .sendMsgResult => ascii "SendMsgResult"
  | .serviceMessage => ascii "netmgr::ServiceMessage"
  | .lineMessage => ascii "netmgr::LineMessage"

theorem typeName_injective {a b : MsgClass} (h : a.typeName = b.typeName) : a = b := by
  revert h
  cases a <;> cases b <;> decide

/-- `MsgContext`. -/
structure MsgContext where
  addr : Bytes
  msgId : UInt64
  deriving DecidableEq

/-- The requests, with their fields. -/
inductive Request
  | openMsgQueue (msgQueueName : CStr) (role create option duration : Int32) (clientName : CStr)
  | closeMsgQueue (msgQueueCode : CStr)
  | getMsg (msgQueueCode : CStr) (autoReply : Bool)
  | sendMsg (msgQueueCode msgData : CStr)
  deriving DecidableEq

/-- What a message on `_requestQueue` holds. -/
inductive Content
  | request (r : Request)
  | line (line : Bytes)

structure Message where
  context : MsgContext
  content : Content

def Request.msgClass : Request → MsgClass
  | .openMsgQueue .. => .openMsgQueueRequest
  | .closeMsgQueue _ => .closeMsgQueueRequest
  | .getMsg _ _ => .getMsgRequest
  | .sendMsg _ _ => .sendMsgRequest

def Message.msgClass (m : Message) : MsgClass :=
  match m.content with
  | .request r => r.msgClass
  | .line _ => .lineMessage

/-! ## Factories -/

/-- The factories `main` registers. -/
inductive Factory
  | netMgrMsgFactory | queueMsgFactory
  deriving DecidableEq

/-- `KnownTypes`. -/
def Factory.knownTypes : Factory → List Bytes
  | .netMgrMsgFactory =>
    [ascii "netmgr::ServiceMessage", ascii "netmgr::LineMessage", ascii "netmgr::IndexMsg"]
  | .queueMsgFactory =>
    [ascii "OpenMsgQueueRequest", ascii "OpenMsgQueueResult", ascii "CloseMsgQueueRequest",
      ascii "CloseMsgQueueRequest", ascii "GetMsgRequest", ascii "GetMsgResult",
      ascii "SendMsgRequest", ascii "SendMsgResult"]

/-- The classes of the `NAME2OBJ` lines; `_MSGTYPES_` for the queue's. -/
def Factory.classes : Factory → List MsgClass
  | .netMgrMsgFactory => [.serviceMessage, .lineMessage]
  | .queueMsgFactory =>
    [.openMsgQueueRequest, .openMsgQueueResult, .closeMsgQueueRequest, .closeMsgQueueResult,
      .getMsgRequest, .getMsgResult, .sendMsgRequest, .sendMsgResult]

/-- `Create`: the first class with that name. -/
def Factory.create (f : Factory) (type : Bytes) : Option MsgClass :=
  f.classes.find? fun c => c.typeName = type

/-- `MappedMsgFactory::factories`. -/
abbrev MappedMsgFactory := Bytes → Option Factory

namespace MappedMsgFactory

/-- `RegisterFactory`: nothing is registered when a name belongs to another factory. -/
def registerFactory (f : Factory) (m : MappedMsgFactory) : Int × MappedMsgFactory :=
  if f.knownTypes.any fun t => m t ≠ none ∧ m t ≠ some f then (-1, m)
  else (0, fun t => if t ∈ f.knownTypes then some ((m t).getD f) else m t)

/-- `Create`. -/
def create (m : MappedMsgFactory) (type : Bytes) : Option MsgClass :=
  (m type).bind fun f => f.create type

end MappedMsgFactory

/-- `GetGlobalMsgFactory()` after the first lines of `main`. -/
def globalMsgFactory : MappedMsgFactory :=
  (MappedMsgFactory.registerFactory .queueMsgFactory
    (MappedMsgFactory.registerFactory .netMgrMsgFactory fun _ => none).2).2

/-- The lookups of the table of `Domq.Netmgr.Factory` after a registration. -/
theorem registerFactory_find (f : Factory) (m : Netmgr.MappedMsgFactory Factory) :
    MappedMsgFactory.registerFactory f m.find =
      ((m.registerFactory Factory.knownTypes f).1,
        (m.registerFactory Factory.knownTypes f).2.find) := by
  have hconf : (f.knownTypes.any fun t => m.find t ≠ none ∧ m.find t ≠ some f) =
      m.conflicts f f.knownTypes := by
    rw [Bool.eq_iff_iff, Netmgr.MappedMsgFactory.conflicts_iff, List.any_eq_true]
    refine exists_congr fun t => and_congr_right fun _ => ?_
    rcases m.find t with - | g <;> simp
  unfold MappedMsgFactory.registerFactory
  rw [hconf]
  rcases Bool.eq_false_or_eq_true (m.conflicts f f.knownTypes) with hc | hc
  · have hreg : m.registerFactory Factory.knownTypes f = (-1, m) := by
      unfold Netmgr.MappedMsgFactory.registerFactory
      rw [if_pos hc]
    rw [if_pos hc, hreg]
  · have hret : (m.registerFactory Factory.knownTypes f).1 = 0 := by
      unfold Netmgr.MappedMsgFactory.registerFactory
      rw [if_neg (by simp [hc])]
    rw [if_neg (by simp [hc]), hret, Prod.mk.injEq]
    refine ⟨rfl, ?_⟩
    funext t
    rw [Netmgr.MappedMsgFactory.find_registerFactory hc]
    by_cases ht : t ∈ f.knownTypes
    · rw [if_pos ht, if_pos ht]
      rcases hfind : m.find t with - | g
      · rfl
      · rw [Option.getD_some, Netmgr.MappedMsgFactory.eq_of_not_conflicts hc ht hfind]
    · rw [if_neg ht, if_neg ht]

/-- What `main` registers, as calls on a new table. -/
theorem globalMsgFactory_eq :
    globalMsgFactory = (Netmgr.MappedMsgFactory.after Factory.knownTypes
      [.registerFactory .netMgrMsgFactory, .registerFactory .queueMsgFactory]).find := by
  have hnew : (fun _ => none) = Netmgr.MappedMsgFactory.find (F := Factory) .new := by
    funext t
    simp [Netmgr.MappedMsgFactory.find, Netmgr.MappedMsgFactory.new]
  unfold globalMsgFactory
  rw [hnew, registerFactory_find, registerFactory_find]
  rfl

theorem create_typeName (c : MsgClass) :
    globalMsgFactory.create c.typeName = if c = .closeMsgQueueResult then none else some c := by
  cases c <;> decide

/-- **What can be created**: every class by its name, but `CloseMsgQueueResult`. -/
theorem create_eq_some_iff {t : Bytes} {c : MsgClass} :
    globalMsgFactory.create t = some c ↔ c.typeName = t ∧ c ≠ .closeMsgQueueResult := by
  constructor
  · intro h
    obtain ⟨f, -, hf⟩ := Option.bind_eq_some_iff.mp h
    have hname : c.typeName = t := by simpa using List.find?_some hf
    refine ⟨hname, ?_⟩
    rintro rfl
    rw [← hname, create_typeName, if_pos rfl] at h
    cases h
  · rintro ⟨rfl, hc⟩
    rw [create_typeName, if_neg hc]

end Domq.Mq
