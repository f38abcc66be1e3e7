import Domq.Netmgr.Encode
import Domq.Mq.Processor

/-!
# Sending a result

A result of the worker loop as a message for the coders, with the `JsonEncode` of its class
(`msgqueuemsg.cpp`), and what `PushMsgCallBack::Call` (`netmgr/msgcallback.cpp`) does with a message
for a connection that is there.

* `msgNo` of a `GetMsgResult` is set by nothing, and neither is the `serialNo` of a result.
* The buffer has 1 MiB, and one byte less is passed as its length.

Results:
* `push_result`: what becomes of a result that `JsonRpcCoder` encodes, by the length of its text.
* `push_line`: what becomes of a line; the empty line closes the connection.
-/

namespace Domq.Mq

open Domq.Lib Domq.Netmgr

/-! ## Results as messages -/

/-- `JsonEncode`; the requests that are not meant to be encoded assert that they are not. -/
def Result.jsonEncode (res : Result) (msgNo : Int32) : Option (Int32 × Value) :=
  match res.msgClass with
  | .openMsgQueueResult => do
    if res.error ≠ 0 then return (0, .null)
    let json ← Value.null.set "msgQueueCode" (.ofStdString res.msgQueueCode)
    return (0, json)
  | .getMsgResult => do
    if res.error ≠ Int32.ofInt SUCCESS then return (0, .null)
    let json ← Value.null.set "data" (.ofStdString res.data)
    let json ← json.set "msgNo" (.int msgNo.toInt64)
    return (0, json)
  | .openMsgQueueRequest => none
  | .getMsgRequest => none
  | .sendMsgRequest => none
  | _ => some (0, .null)

/-- The class below `Message`; a `ServiceMessage` made by the factory is empty. -/
def Result.kind (res : Result) : Kind :=
  match res.msgClass with
  | .openMsgQueueResult => .result res.error res.errMsg
  | .closeMsgQueueResult => .result res.error res.errMsg
  | .getMsgResult => .result res.error res.errMsg
  | .sendMsgResult => .result res.error res.errMsg
  | .lineMessage => .line res.line
  | .serviceMessage => .service [] [] []
  | _ => .other

/-- The message, with what nothing sets. -/
def Result.netMessage (res : Result) (serialNo msgNo : Int32) (handleId : UInt64) : NetMessage where
  typeName := res.msgClass.typeName
  serialNo := serialNo
  peer := ⟨handleId, res.context.addr, res.context.msgId⟩
  jsonEncode := res.jsonEncode msgNo
  kind := res.kind

/-! ## `PushMsgCallBack::Call` -/

/-- `sizeof(buffer)-1`. -/
def BUFFER_LEN : Nat := 1024 * 1024 - 1

/-- What is done with one message. -/
inductive PushOutcome
  | aborted
  | failed
  | send (data : Bytes)
  | close

/-- One turn of `PushMsgCallBack::Call`, the handler of the address being registered. -/
def pushMsgCallBack (coder : Coder) (m : NetMessage) : PushOutcome :=
  match coder.encode BUFFER_LEN m with
  | none => .aborted
  | some out =>
    if out.ret.toInt < 0 then .failed
    else if 0 < out.ret.toInt then .send (out.written.take out.ret.toNatClampNeg)
    else .close

/-- A message that fits is sent whole, header and payload, unless it is empty. -/
theorem push_of_fits {c : Coder} {m : NetMessage} {p : Bytes} (hp : c.payload m = some p)
    (hfits : p.length + c.header ≤ BUFFER_LEN) (hne : 0 < p.length + c.header) :
    pushMsgCallBack c m = .send (c.put BUFFER_LEN p).written := by
  obtain ⟨hret, hwritten⟩ :=
    put_of_le (c := c) (p := p) (Or.inr (le_trans (Nat.le_add_right _ _) hfits))
  have hint : (c.put BUFFER_LEN p).ret.toInt = (p.length + c.header : Nat) := by
    rw [hret]
    exact Int32.toInt_ofNat_of_lt (lt_of_le_of_lt hfits (by decide))
  have hclamp : (c.put BUFFER_LEN p).ret.toNatClampNeg = p.length + c.header := by
    rw [← Int32.toNat_toInt, hint, Int.toNat_natCast]
  rw [pushMsgCallBack, encode_of_payload hp]
  simp only [hint, hclamp]
  rw [if_neg (by omega), if_pos (by omega), List.take_of_length_le hwritten.le]

/-- A text longer than the buffer is not sent. -/
theorem push_of_long {c : Coder} {m : NetMessage} {p : Bytes} (hp : c.payload m = some p)
    (hc : c ≠ .line) (hlong : BUFFER_LEN < p.length) : pushMsgCallBack c m = .failed := by
  rw [pushMsgCallBack, encode_of_payload hp, put_of_long hc hlong]
  exact if_pos (by decide)

/-! ## What is sent -/

/-- The result classes. -/
def MsgClass.isResult (c : MsgClass) : Prop :=
  c = .openMsgQueueResult ∨ c = .closeMsgQueueResult ∨ c = .getMsgResult ∨ c = .sendMsgResult

theorem Result.kind_of_isResult {res : Result} (h : res.msgClass.isResult) :
    res.kind = .result res.error res.errMsg := by
  unfold Result.kind
  rcases h with h | h | h | h
  · rw [h]
  · rw [h]
  · rw [h]
  · rw [h]

/-- A result is encoded to null or to an object. -/
theorem Result.jsonEncode_of_isResult {res : Result} (h : res.msgClass.isResult) (msgNo : Int32) :
    ∃ v, res.jsonEncode msgNo = some (0, v) := by
  unfold Result.jsonEncode
  rcases h with h | h | h | h
  · rw [h]
    by_cases he : res.error = 0
    · simp [he, Value.set]
    · simp [he]
  · rw [h]
    exact ⟨_, rfl⟩
  · rw [h]
    by_cases he : res.error = Int32.ofInt SUCCESS
    · simp [he, Value.set]
    · simp [he]
  · rw [h]
    exact ⟨_, rfl⟩

/-- `JsonRpcCoder` has a text for every result. -/
theorem Result.exists_text (names : JsonRpcCoder) {res : Result} (h : res.msgClass.isResult)
    (serialNo msgNo : Int32) (handleId : UInt64) :
    ∃ text, (Coder.jsonRpc names).payload (res.netMessage serialNo msgNo handleId) = some text := by
  obtain ⟨v, hv⟩ := Result.jsonEncode_of_isResult h msgNo
  obtain ⟨obj, hobj⟩ := encodeResult_of_jsonEncode names
    (m := res.netMessage serialNo msgNo handleId) hv res.error res.errMsg
  have hkind : (res.netMessage serialNo msgNo handleId).kind = .result res.error res.errMsg :=
    Result.kind_of_isResult h
  refine ⟨obj.write, ?_⟩
  simp [Coder.payload, jsonRpcData, hkind, hobj]

/-- **What becomes of a result.** Its text is sent in a frame if the frame fits into the buffer, and
given up if the text alone does not. In between `Encode` writes past the end of the buffer. -/
theorem push_result (names : JsonRpcCoder) {res : Result} (h : res.msgClass.isResult)
    (serialNo msgNo : Int32) (handleId : UInt64) :
    ∃ text, (Coder.jsonRpc names).payload (res.netMessage serialNo msgNo handleId) = some text ∧
      (text.length + headLen ≤ BUFFER_LEN →
        pushMsgCallBack (.jsonRpc names) (res.netMessage serialNo msgNo handleId) =
          .send (frame text)) ∧
      (BUFFER_LEN < text.length →
        pushMsgCallBack (.jsonRpc names) (res.netMessage serialNo msgNo handleId) = .failed) ∧
      (text.length ≤ BUFFER_LEN → BUFFER_LEN < text.length + headLen →
        ∃ out, (Coder.jsonRpc names).encode BUFFER_LEN (res.netMessage serialNo msgNo handleId) =
          some out ∧ BUFFER_LEN < out.written.length) := by
  obtain ⟨text, htext⟩ := Result.exists_text names h serialNo msgNo handleId
  refine ⟨text, htext, fun hfits => ?_, fun hlong => ?_, fun hle hlt => ?_⟩
  · have hput : (Coder.jsonRpc names).put BUFFER_LEN text = encodeFrame BUFFER_LEN text := rfl
    have hheader : 0 < (Coder.jsonRpc names).header := Nat.zero_lt_succ 3
    rw [push_of_fits htext hfits (Nat.lt_add_left _ hheader), hput, encodeFrame,
      if_neg (Nat.not_lt.mpr (le_trans (Nat.le_add_right _ _) hfits))]
  · exact push_of_long htext (by simp) hlong
  · refine ⟨_, encode_of_payload htext, ?_⟩
    rw [(put_of_le (Or.inr hle)).2]
    exact hlt

/-- **What becomes of a line.** A line that fits is sent as it is; the empty one closes the
connection. -/
theorem push_line {res : Result} (h : res.msgClass = .lineMessage) (serialNo msgNo : Int32)
    (handleId : UInt64) (hfits : res.line.length ≤ BUFFER_LEN) :
    pushMsgCallBack .line (res.netMessage serialNo msgNo handleId) =
      if res.line = [] then .close else .send res.line := by
  have hp : Coder.line.payload (res.netMessage serialNo msgNo handleId) = some res.line := by
    simp [Coder.payload, lineData, Result.netMessage, Result.kind, h]
  by_cases hempty : res.line = []
  · rw [if_pos hempty, pushMsgCallBack, encode_of_payload hp, hempty]
    rfl
  · rw [if_neg hempty, push_of_fits hp hfits (List.length_pos_of_ne_nil hempty)]
    rfl

end Domq.Mq
