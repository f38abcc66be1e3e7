import Domq.Mq.Message
import Domq.Netmgr.RpcNames

/-!
# The JSON-RPC decoder

`JsonRpcCoder::Decode` (`coder.cpp`) and the `JsonDecode` of the requests (`msgqueuemsg.cpp`), with
the accessors of jsoncpp they call (`json_value.cpp`).

* `parse` stands for `Json::Reader::parse`: any function from a body to a value, or to a failure.
* A `Json::Value` keeps strings and keys as C strings, and an `Int` is a `long`. Of a `realValue`
  only the conversion to `Int` is looked at.
* `Stop.assertion` is a failed `JSON_ASSERT`, which ends the process; `Stop.invalid` is `return -1`.
  The arguments of `LOG_ERROR` are evaluated before the call, whatever the log level is.

Result: `decode_conforms_iff`: the bodies on which `Decode` does what its grammar says.
-/

namespace Domq.Mq

open Domq.Lib

/-! ## `Json::Value` -/

/-- `Json::Value`. -/
inductive Json
  | null
  | int (n : Int64)
  | uint (n : UInt64)
  | real (value : Double)
  | boolean (b : Bool)
  | string (s : CStr)
  | array (elements : List Json)
  | object (members : List (CStr × Json))

/-- `Json::ValueType`. -/
inductive ValueType
  | null | int | uint | real | boolean | string | array | object
  deriving DecidableEq

def Json.type : Json → ValueType
  | .null => .null
  | .int _ => .int
  | .uint _ => .uint
  | .real _ => .real
  | .boolean _ => .boolean
  | .string _ => .string
  | .array _ => .array
  | .object _ => .object

/-- Why a decoding stops. -/
inductive Stop
  | assertion | invalid
  deriving DecidableEq

/-- A literal as a key. -/
def key (s : String) : CStr := CStr.ofBytes (ascii s)

/-- The member of an object. -/
def member (members : List (CStr × Json)) (k : CStr) : Option Json :=
  (members.find? fun m => m.1 = k).map Prod.snd

namespace Json

/-- `operator[]` of a constant value; `get(key, null)` is the same. -/
def get (v : Json) (k : CStr) : Except Stop Json :=
  match v with
  | .null => .ok .null
  | .object members => .ok ((member members k).getD .null)
  | _ => .error .assertion

/-- `operator[]` of a variable, which inserts a missing member: the member, and the value after. -/
def resolveReference (v : Json) (k : CStr) : Except Stop (Json × Json) :=
  match v with
  | .null => .ok (.null, .object [(k, .null)])
  | .object members =>
    match member members k with
    | some x => .ok (x, v)
    | none => .ok (.null, .object (members ++ [(k, .null)]))
  | _ => .error .assertion

/-- `asCString`. -/
def asCString : Json → Except Stop CStr
  | .string s => .ok s
  | _ => .error .assertion

/-- `asInt`; a string is read by `sscanf` with `%lld`, which stays in the range of `long long`. -/
def asInt : Json → Int64
  | .null => 0
  | .int n => n
  | .uint n => n.toInt64
  | .real value => value.toLong
  | .boolean b => if b then 1 else 0
  | .string s => Int64.ofInt (toLong (decimal s.bytes))
  | .array _ => 0
  | .object _ => 0

end Json

/-! ## `JsonDecode` -/

/-- `CHECK_JSON_OBJECT(json, Json::objectValue)`; what it logs is `json.asCString()`. -/
def checkJsonObject (json : Json) : Except Stop Unit :=
  if json.type ≠ .object then do
    let _ ← json.asCString
    throw .invalid
  else return

/-- `GET_JSON_VALUE(json, key, Json::stringValue, asString)`. -/
def getString (json : Json) (k : String) : Except Stop CStr := do
  match ← json.get (key k) with
  | .string s => return s
  | _ => throw .invalid

/-- `GET_JSON_VALUE(json, key, Json::intValue, asInt)`, before the conversion to the field's type.
-/
def getInt (json : Json) (k : String) : Except Stop Int64 := do
  match ← json.get (key k) with
  | .int n => return n
  | _ => throw .invalid

def openMsgQueueRequestJsonDecode (json : Json) : Except Stop Request := do
  checkJsonObject json
  let msgQueueName ← getString json "msgQueueName"
  let role ← getInt json "role"
  let option ← getInt json "option"
  let duration ← getInt json "duration"
  let create ← getInt json "create"
  let clientName ← getString json "clientName"
  return .openMsgQueue msgQueueName role.toInt32 create.toInt32 option.toInt32 duration.toInt32
    clientName

def closeMsgQueueRequestJsonDecode (json : Json) : Except Stop Request := do
  checkJsonObject json
  let msgQueueCode ← getString json "msgQueueCode"
  return .closeMsgQueue msgQueueCode

def sendMsgRequestJsonDecode (json : Json) : Except Stop Request := do
  checkJsonObject json
  let msgData ← getString json "msgData"
  let msgQueueCode ← getString json "msgQueueCode"
  return .sendMsg msgQueueCode msgData

/-- The only one that does not check that it has an object. -/
def getMsgRequestJsonDecode (json : Json) : Except Stop Request := do
  let msgQueueCode ← getString json "msgQueueCode"
  let autoReply ← getInt json "autoReply"
  return .getMsg msgQueueCode (autoReply ≠ 0)

/-- `dynamic_cast<Request*>(msg)->JsonDecode(json)`; a class that is no request has no answer. -/
def jsonDecode (c : MsgClass) (json : Json) : Except Stop Request :=
  match c with
  | .openMsgQueueRequest => openMsgQueueRequestJsonDecode json
  | .closeMsgQueueRequest => closeMsgQueueRequestJsonDecode json
  | .sendMsgRequest => sendMsgRequestJsonDecode json
  | .getMsgRequest => getMsgRequestJsonDecode json
  | _ => .error .assertion

/-! ## `JsonRpcCoder::Decode` -/

/-- `GetReqClassName`; nothing registers a name with the coder. -/
def getReqClassName (method : CStr) : Bytes := method.bytes ++ ascii "Request"

/-- It is what a coder answers on which names were registered by any calls. -/
theorem getReqClassName_eq (calls : List Netmgr.JsonRpcCoder.Registration) (method : CStr) :
    getReqClassName method = (Netmgr.JsonRpcCoder.after calls).getReqClassName method.bytes := by
  rw [Netmgr.JsonRpcCoder.after_eq_new, Netmgr.JsonRpcCoder.getReqClassName_new]
  rfl

/-- `DecodeRequest`: the request, and the id it is to be answered with. -/
def decodeRequest (obj : Json) (c : MsgClass) : Except Stop (Request × UInt64) := do
  let params ← obj.get (key "params")
  let req ← jsonDecode c params
  let id ← obj.get (key "id")
  return (req, id.asInt.toUInt64)

/-- `Decode` on a parsed body. -/
def decodeValue (obj : Json) : Except Stop (Request × UInt64) := do
  let (method, obj) ← obj.resolveReference (key "method")
  let method ← method.asCString
  match globalMsgFactory.create (getReqClassName method) with
  | none => throw .invalid
  | some c => decodeRequest obj c

/-- What `Decode` does: it returns a request, it returns `NULL`, or an assertion of jsoncpp fails.
-/
inductive Decoded
  | request (req : Request) (msgId : UInt64)
  | null
  | assertion

/-- `JsonRpcCoder::Decode`. -/
def decode (parse : Bytes → Option Json) (buf : Bytes) : Decoded :=
  match parse buf with
  | none => .null
  | some obj =>
    match decodeValue obj with
    | .ok (req, msgId) => .request req msgId
    | .error .invalid => .null
    | .error .assertion => .assertion

/-! ## The grammar -/

/-- The keys a request's `JsonDecode` reads, with the JSON type each has to have. -/
def demands : MsgClass → List (String × ValueType)
  | .openMsgQueueRequest =>
    [("msgQueueName", .string), ("role", .int), ("option", .int), ("duration", .int),
      ("create", .int), ("clientName", .string)]
  | .closeMsgQueueRequest => [("msgQueueCode", .string)]
  | .sendMsgRequest => [("msgData", .string), ("msgQueueCode", .string)]
  | .getMsgRequest => [("msgQueueCode", .string), ("autoReply", .int)]
  | _ => []

/-- The request classes. -/
def MsgClass.isRequest (c : MsgClass) : Prop :=
  c = .openMsgQueueRequest ∨ c = .closeMsgQueueRequest ∨ c = .sendMsgRequest ∨ c = .getMsgRequest

/-- An object has every key a request reads, with the demanded type. -/
def HasFields (c : MsgClass) (ps : List (CStr × Json)) : Prop :=
  ∀ d ∈ demands c, ∃ x, member ps (key d.1) = some x ∧ x.type = d.2

/-- An object with a method, which is a string. -/
def HasMethod (v : Json) (ms : List (CStr × Json)) (m : CStr) : Prop :=
  v = .object ms ∧ member ms (key "method") = some (.string m)

/-- A body of the grammar: a request of class `c` with the parameters `ps`. -/
def Grammatical (v : Json) (c : MsgClass) (ps : List (CStr × Json)) : Prop :=
  ∃ ms m, HasMethod v ms m ∧ c.isRequest ∧ m.bytes ++ ascii "Request" = c.typeName ∧
    member ms (key "params") = some (.object ps) ∧ HasFields c ps

/-- A field of type `int` equals the JSON value of its key. -/
def IntField (ps : List (CStr × Json)) (k : String) (field : Int) : Prop :=
  ∃ n : Int64, member ps (key k) = some (.int n) ∧ n.toInt = field

/-- The fields of a request equal the JSON values; a `bool` counts as 0 or 1. -/
def FieldsEqual (ps : List (CStr × Json)) : Request → Prop
  | .openMsgQueue msgQueueName role create option duration clientName =>
    member ps (key "msgQueueName") = some (.string msgQueueName) ∧ IntField ps "role" role.toInt ∧
      IntField ps "create" create.toInt ∧ IntField ps "option" option.toInt ∧
      IntField ps "duration" duration.toInt ∧
        member ps (key "clientName") = some (.string clientName)
  | .closeMsgQueue msgQueueCode => member ps (key "msgQueueCode") = some (.string msgQueueCode)
  | .getMsg msgQueueCode autoReply =>
    member ps (key "msgQueueCode") = some (.string msgQueueCode) ∧
      IntField ps "autoReply" (if autoReply then 1 else 0)
  | .sendMsg msgQueueCode msgData =>
    member ps (key "msgQueueCode") = some (.string msgQueueCode) ∧
      member ps (key "msgData") = some (.string msgData)

/-- `Decode` does on a body what the grammar says: for a body of the grammar it returns a request of
that class with these fields, for every other body `NULL`. -/
def Conforms (parse : Bytes → Option Json) (buf : Bytes) : Prop :=
  match parse buf with
  | none => decode parse buf = .null
  | some v =>
    (∀ c ps, Grammatical v c ps →
      ∃ req id, decode parse buf = .request req id ∧ req.msgClass = c ∧ FieldsEqual ps req) ∧
    ((∀ c ps, ¬ Grammatical v c ps) → decode parse buf = .null)

/-! ## Where the decoder conforms -/

/-- An integer fits an `int`. -/
def FitsInt (ps : List (CStr × Json)) (k : String) : Prop :=
  ∀ n : Int64, member ps (key k) = some (.int n) → n.toInt32.toInt = n.toInt

/-- The integers of an object fit the fields of a request. -/
def FitsFields (c : MsgClass) (ps : List (CStr × Json)) : Prop :=
  match c with
  | .openMsgQueueRequest =>
    FitsInt ps "role" ∧ FitsInt ps "create" ∧ FitsInt ps "option" ∧ FitsInt ps "duration"
  | .getMsgRequest => ∀ n : Int64, member ps (key "autoReply") = some (.int n) → n = 0 ∨ n = 1
  | _ => True

/-- The `params` with which `JsonDecode` of class `c` works: an object whose integers fit, or what
it refuses without an assertion. -/
def FineParams (c : MsgClass) (params : Option Json) : Prop :=
  (∃ ps, params = some (.object ps) ∧ (HasFields c ps → FitsFields c ps)) ∨
    (if c = .getMsgRequest then params = none ∨ params = some .null
      else ∃ s, params = some (.string s))

/-- The values on which `Decode` conforms: objects with a string `method`, and with fine `params` if
it names a request. -/
def FineBody (v : Json) : Prop :=
  ∃ ms m, HasMethod v ms m ∧
    ∀ c : MsgClass, c.isRequest → m.bytes ++ ascii "Request" = c.typeName →
      FineParams c (member ms (key "params"))

section

variable {ps : List (CStr × Json)}

/-- The rest `p` of a decoding reads the keys `ds` of an object and makes a request of them. -/
def ReadsKeys (ps : List (CStr × Json)) (ds : List (String × ValueType)) (p : Except Stop Request)
    (Q : Request → Prop) : Prop :=
  (∃ req, p = .ok req ∧ (∀ d ∈ ds, ∃ x, member ps (key d.1) = some x ∧ x.type = d.2) ∧ Q req) ∨
    ((¬ ∀ d ∈ ds, ∃ x, member ps (key d.1) = some x ∧ x.type = d.2) ∧ p = .error .invalid)

variable {ds : List (String × ValueType)} {Q : Request → Prop}

theorem reads_ret {req : Request} (h : Q req) : ReadsKeys ps [] (.ok req) Q :=
  .inl ⟨req, rfl, by simp, h⟩

/-- A key that is there, with the demanded type: the rest goes on. -/
theorem reads_cons {p : Except Stop Request} {k : String} {t : ValueType} {x : Json}
    (hx : member ps (key k) = some x) (ht : x.type = t) (h : ReadsKeys ps ds p Q) :
    ReadsKeys ps ((k, t) :: ds) p Q := by
  have hhead : ∃ x, member ps (key k) = some x ∧ x.type = t := ⟨x, hx, ht⟩
  rcases h with ⟨req, hp, hds, hq⟩ | ⟨hno, hp⟩
  · exact .inl ⟨req, hp, List.forall_mem_cons.mpr ⟨hhead, hds⟩, hq⟩
  · exact .inr ⟨fun hall => hno (List.forall_mem_cons.mp hall).2, hp⟩

/-- A key that is not there, or of another type: `-1`. -/
theorem reads_missing {p : Except Stop Request} {k : String} {t : ValueType}
    (hno : ∀ x, member ps (key k) = some x → x.type ≠ t) (hp : p = .error .invalid) :
    ReadsKeys ps ((k, t) :: ds) p Q := by
  refine .inr ⟨fun hall => ?_, hp⟩
  obtain ⟨x, hx, ht⟩ := (List.forall_mem_cons.mp hall).1
  exact hno x hx ht

theorem reads_string {k : String} {f : CStr → Except Stop Request}
    (h : ∀ s, member ps (key k) = some (.string s) → ReadsKeys ps ds (f s) Q) :
    ReadsKeys ps ((k, .string) :: ds) (getString (.object ps) k >>= f) Q := by
  unfold getString
  simp only [Json.get]
  cases hm : member ps (key k) with
  | none => exact reads_missing (by simp [hm]) rfl
  | some x =>
    cases x with
    | string s => exact reads_cons hm rfl (h s hm)
    | _ => exact reads_missing (by simp [hm, Json.type]) rfl

theorem reads_int {k : String} {f : Int64 → Except Stop Request}
    (h : ∀ n, member ps (key k) = some (.int n) → ReadsKeys ps ds (f n) Q) :
    ReadsKeys ps ((k, .int) :: ds) (getInt (.object ps) k >>= f) Q := by
  unfold getInt
  simp only [Json.get]
  cases hm : member ps (key k) with
  | none => exact reads_missing (by simp [hm]) rfl
  | some x =>
    cases x with
    | int n => exact reads_cons hm rfl (h n hm)
    | _ => exact reads_missing (by simp [hm, Json.type]) rfl

theorem intField_iff {k : String} {n : Int64} (hn : member ps (key k) = some (.int n)) :
    IntField ps k n.toInt32.toInt ↔ FitsInt ps k := by
  constructor
  · rintro ⟨n', hn', heq⟩ n'' hn''
    cases hn.symm.trans hn'
    cases hn.symm.trans hn''
    exact heq.symm
  · intro h
    exact ⟨n, hn, (h n hn).symm⟩

theorem autoReply_iff {n : Int64} (hn : member ps (key "autoReply") = some (.int n)) :
    IntField ps "autoReply" (if decide (n ≠ 0) = true then 1 else 0) ↔
      ∀ n' : Int64, member ps (key "autoReply") = some (.int n') → n' = 0 ∨ n' = 1 := by
  constructor
  · rintro ⟨n₁, hn₁, heq⟩ n' hn'
    cases hn.symm.trans hn₁
    cases hn.symm.trans hn'
    by_cases h0 : n = 0
    · exact .inl h0
    · rw [if_pos (by simpa using h0)] at heq
      exact .inr (Int64.toInt_inj.mp heq)
  · intro h
    refine ⟨n, hn, ?_⟩
    rcases h n hn with rfl | rfl
    · rfl
    · rfl

/-- **`JsonDecode` on an object**: a request exactly if the object has the fields, and equal to them
exactly if the integers fit. -/
theorem jsonDecode_object {c : MsgClass} (hc : c.isRequest) (ps : List (CStr × Json)) :
    ReadsKeys ps (demands c) (jsonDecode c (.object ps)) fun req =>
      req.msgClass = c ∧ (FieldsEqual ps req ↔ FitsFields c ps) := by
  rcases hc with rfl | rfl | rfl | rfl
  · refine reads_string fun name hname => reads_int fun role hrole =>
      reads_int fun option hoption =>
      reads_int fun duration hduration => reads_int fun create hcreate =>
      reads_string fun client hclient => reads_ret ⟨rfl, ?_⟩
    simp only [FieldsEqual, FitsFields, hname, hclient, intField_iff hrole, intField_iff hcreate,
      intField_iff hoption, intField_iff hduration, true_and, and_true]
  · exact reads_string fun code hcode => reads_ret ⟨rfl, iff_of_true hcode trivial⟩
  · exact reads_string fun data hdata => reads_string fun code hcode =>
      reads_ret ⟨rfl, iff_of_true ⟨hcode, hdata⟩ trivial⟩
  · refine reads_string fun code hcode => reads_int fun n hn => reads_ret ⟨rfl, ?_⟩
    simp only [FieldsEqual, FitsFields, hcode, true_and]
    exact autoReply_iff hn

/-- `JsonDecode` on anything else: `-1` for what the class refuses, otherwise an assertion fails. -/
theorem jsonDecode_other {c : MsgClass} (hc : c.isRequest) {v : Json} (hv : v.type ≠ .object) :
    jsonDecode c v = .error
      (if (if c = .getMsgRequest then v.type = .null else v.type = .string) then .invalid
        else .assertion) := by
  rcases hc with rfl | rfl | rfl | rfl <;> cases v <;> first | rfl | exact absurd rfl hv

end

/-- **`JsonDecode` on the `params` of a body.** -/
theorem jsonDecode_params {c : MsgClass} (hc : c.isRequest) (params : Option Json) :
    (∃ ps req, params = some (.object ps) ∧ HasFields c ps ∧
      jsonDecode c (params.getD .null) = .ok req ∧ req.msgClass = c ∧
      (FieldsEqual ps req ↔ FitsFields c ps)) ∨
    (jsonDecode c (params.getD .null) = .error .invalid ∧ FineParams c params ∧
      ∀ ps, params = some (.object ps) → ¬ HasFields c ps) ∨
    (jsonDecode c (params.getD .null) = .error .assertion ∧ ¬ FineParams c params) := by
  by_cases hobj : ∃ ps, params = some (.object ps)
  · obtain ⟨ps, rfl⟩ := hobj
    rcases jsonDecode_object hc ps with ⟨req, hreq, hfields, hclass, hfit⟩ | ⟨hno, hreq⟩
    · exact .inl ⟨ps, req, rfl, hfields, hreq, hclass, hfit⟩
    · refine .inr (.inl ⟨hreq, .inl ⟨ps, rfl, fun h => absurd h hno⟩, ?_⟩)
      intro ps' heq
      cases heq
      exact hno
  · have hne : ∀ ps, params ≠ some (.object ps) := fun ps h => hobj ⟨ps, h⟩
    have hty : (params.getD .null).type ≠ .object := by
      intro h
      cases params with
      | none => cases h
      | some x =>
        cases x with
        | object ps => exact hne ps rfl
        | _ => cases h
    have hfine : FineParams c params ↔ (if c = .getMsgRequest then (params.getD .null).type = .null
        else (params.getD .null).type = .string) := by
      unfold FineParams
      have hno : ¬ ∃ ps, params = some (.object ps) ∧ (HasFields c ps → FitsFields c ps) :=
        fun ⟨ps, h, _⟩ => hne ps h
      rw [or_iff_right hno]
      split
      · cases params with
        | none => simp [Json.type]
        | some x => cases x <;> simp [Json.type]
      · cases params with
        | none => simp [Json.type]
        | some x => cases x <;> simp [Json.type]
    have hres := jsonDecode_other hc hty
    by_cases hf : FineParams c params
    · rw [if_pos (hfine.mp hf)] at hres
      exact .inr (.inl ⟨hres, hf, fun ps h => absurd h (hne ps)⟩)
    · rw [if_neg fun h => hf (hfine.mpr h)] at hres
      exact .inr (.inr ⟨hres, hf⟩)

/-- A name that ends in `Request` creates a request, or nothing. -/
theorem create_request_iff {m : CStr} {c : MsgClass} :
    globalMsgFactory.create (getReqClassName m) = some c ↔
      c.isRequest ∧ m.bytes ++ ascii "Request" = c.typeName := by
  rw [create_eq_some_iff]
  constructor
  · rintro ⟨hname, -⟩
    refine ⟨?_, hname.symm⟩
    have hsuffix : ascii "Request" <:+ c.typeName := ⟨m.bytes, hname.symm⟩
    revert hsuffix
    unfold MsgClass.isRequest
    cases c <;> decide
  · rintro ⟨hc, hname⟩
    refine ⟨hname.symm, ?_⟩
    rintro rfl
    revert hc
    unfold MsgClass.isRequest
    decide

theorem decodeValue_method {v : Json} {ms : List (CStr × Json)} {m : CStr} (h : HasMethod v ms m) :
    decodeValue v =
      match globalMsgFactory.create (getReqClassName m) with
      | none => .error .invalid
      | some c => decodeRequest v c := by
  obtain ⟨rfl, hm⟩ := h
  unfold decodeValue
  simp only [Json.resolveReference, hm]
  rfl

/-- Without a method that is a string, an assertion fails. -/
theorem decodeValue_no_method {v : Json} (h : ¬ ∃ ms m, HasMethod v ms m) :
    decodeValue v = .error .assertion := by
  unfold decodeValue
  cases v with
  | object ms =>
    simp only [Json.resolveReference]
    cases hm : member ms (key "method") with
    | none => rfl
    | some x =>
      cases x with
      | string m => exact absurd ⟨ms, m, rfl, hm⟩ h
      | _ => rfl
  | _ => rfl

theorem decodeRequest_object (ms : List (CStr × Json)) (c : MsgClass) :
    decodeRequest (.object ms) c =
      (jsonDecode c ((member ms (key "params")).getD .null)).map fun req =>
        (req, ((member ms (key "id")).getD .null).asInt.toUInt64) := by
  unfold decodeRequest
  simp only [Json.get]
  show (jsonDecode c _ >>= _) = _
  cases jsonDecode c ((member ms (key "params")).getD .null) with
  | error e => rfl
  | ok req => rfl

/-- The method of a body is the only one. -/
theorem fineBody_iff {v : Json} {ms : List (CStr × Json)} {m : CStr} (hm : HasMethod v ms m) :
    FineBody v ↔ ∀ c : MsgClass, c.isRequest → m.bytes ++ ascii "Request" = c.typeName →
      FineParams c (member ms (key "params")) := by
  obtain ⟨rfl, hm⟩ := hm
  constructor
  · rintro ⟨ms', m', ⟨heq, hm'⟩, h⟩
    cases heq
    cases hm.symm.trans hm'
    exact h
  · exact fun h => ⟨ms, m, ⟨rfl, hm⟩, h⟩

theorem grammatical_iff {v : Json} {ms : List (CStr × Json)} {m : CStr} (hm : HasMethod v ms m)
    (c : MsgClass) (ps : List (CStr × Json)) :
    Grammatical v c ps ↔ c.isRequest ∧ m.bytes ++ ascii "Request" = c.typeName ∧
      member ms (key "params") = some (.object ps) ∧ HasFields c ps := by
  obtain ⟨rfl, hm⟩ := hm
  constructor
  · rintro ⟨ms', m', ⟨heq, hm'⟩, h⟩
    cases heq
    cases hm.symm.trans hm'
    exact h
  · exact fun h => ⟨ms, m, ⟨rfl, hm⟩, h⟩

/-- A body describes one request. -/
theorem Grammatical.unique {v : Json} {c c' : MsgClass} {ps ps' : List (CStr × Json)}
    (h : Grammatical v c ps) (h' : Grammatical v c' ps') : c' = c ∧ ps' = ps := by
  obtain ⟨ms, m, hm, -, hname, hps, -⟩ := h
  obtain ⟨-, hname', hps', -⟩ := (grammatical_iff hm c' ps').mp h'
  cases hps.symm.trans hps'
  exact ⟨typeName_injective (hname'.symm.trans hname), rfl⟩

/-- For `params` with the fields, being fine is that the integers fit. -/
theorem fineParams_iff {c : MsgClass} {ps : List (CStr × Json)} (hfields : HasFields c ps) :
    FineParams c (some (.object ps)) ↔ FitsFields c ps := by
  constructor
  · rintro (⟨ps', hps', h⟩ | h)
    · cases hps'
      exact h hfields
    · split at h
      · simp at h
      · simp at h
  · exact fun h => .inl ⟨ps, rfl, fun _ => h⟩

/-- **How a decoding ends**: with the request the body describes, with `-1` on a body that describes
none, or with an assertion. -/
theorem decodeValue_cases (v : Json) :
    (∃ c ps req id, Grammatical v c ps ∧ decodeValue v = .ok (req, id) ∧ req.msgClass = c ∧
      (FieldsEqual ps req ↔ FineBody v)) ∨
    (decodeValue v = .error .invalid ∧ FineBody v ∧ ∀ c ps, ¬ Grammatical v c ps) ∨
    (decodeValue v = .error .assertion ∧ ¬ FineBody v) := by
  by_cases hmethod : ∃ ms m, HasMethod v ms m
  · obtain ⟨ms, m, hm⟩ := hmethod
    rw [decodeValue_method hm, fineBody_iff hm]
    simp only [grammatical_iff hm]
    have hv := hm.1
    subst hv
    cases hcreate : globalMsgFactory.create (getReqClassName m) with
    | none =>
      -- the method names no request
      have hno : ∀ c : MsgClass, c.isRequest → ¬ m.bytes ++ ascii "Request" = c.typeName := by
        intro c hc hname
        rw [create_request_iff.mpr ⟨hc, hname⟩] at hcreate
        cases hcreate
      exact .inr (.inl ⟨rfl, fun c hc hname => absurd hname (hno c hc),
        fun c ps h => hno c h.1 h.2.1⟩)
    | some c =>
      obtain ⟨hc, hname⟩ := create_request_iff.mp hcreate
      have honly : ∀ c' : MsgClass, m.bytes ++ ascii "Request" = c'.typeName → c' = c :=
        fun c' hname' => typeName_injective (hname'.symm.trans hname)
      have hone : (∀ c' : MsgClass, c'.isRequest → m.bytes ++ ascii "Request" = c'.typeName →
          FineParams c' (member ms (key "params"))) ↔ FineParams c (member ms (key "params")) := by
        refine ⟨fun h => h c hc hname, fun h c' _ hname' => ?_⟩
        rw [honly c' hname']
        exact h
      rw [hone]
      simp only [decodeRequest_object]
      rcases jsonDecode_params hc (member ms (key "params")) with
        ⟨ps, req, hps, hfields, hreq, hclass, hfit⟩ | ⟨hreq, hparams, hnof⟩ | ⟨hreq, hparams⟩
      · refine .inl ⟨c, ps, req, _, ⟨hc, hname, hps, hfields⟩, by rw [hreq]; rfl, hclass, ?_⟩
        rw [hfit, hps, fineParams_iff hfields]
      · refine .inr (.inl ⟨by rw [hreq]; rfl, hparams, ?_⟩)
        rintro c' ps' ⟨-, hname', hps', hfields'⟩
        cases honly c' hname'
        exact hnof ps' hps' hfields'
      · exact .inr (.inr ⟨by rw [hreq]; rfl, hparams⟩)
  · refine .inr (.inr ⟨decodeValue_no_method hmethod, ?_⟩)
    rintro ⟨ms, m, hm, -⟩
    exact hmethod ⟨ms, m, hm⟩

/-- **The grammar.** `Decode` returns the request a body of the grammar describes, and `NULL` for
every other body, without an assertion failing, exactly on the bodies that do not parse and those
whose value is fine: an object with a string `method` and, if it names a request, `params` that are
an object whose integers fit the fields, or of the one other kind that the `JsonDecode` of the class
refuses. -/
theorem decode_conforms_iff (parse : Bytes → Option Json) (buf : Bytes) :
    Conforms parse buf ↔ ∀ v, parse buf = some v → FineBody v := by
  unfold Conforms decode
  cases hp : parse buf with
  | none => exact iff_of_true rfl (by simp)
  | some v =>
    simp only [Option.some.injEq, forall_eq']
    rcases decodeValue_cases v with
      ⟨c, ps, req, id, hg, hdec, hclass, hequal⟩ | ⟨hdec, hfine, hno⟩ | ⟨hdec, hfine⟩
    · rw [hdec]
      constructor
      · rintro ⟨hall, -⟩
        obtain ⟨req', id', heq, -, h⟩ := hall c ps hg
        cases heq
        exact hequal.mp h
      · intro hfine
        refine ⟨fun c' ps' h' => ?_, fun h => absurd hg (h c ps)⟩
        obtain ⟨rfl, rfl⟩ := hg.unique h'
        exact ⟨req, id, rfl, hclass, hequal.mpr hfine⟩
    · rw [hdec]
      exact iff_of_true ⟨fun c ps h => absurd h (hno c ps), fun _ => rfl⟩ hfine
    · rw [hdec]
      refine iff_of_false ?_ hfine
      rintro ⟨hall, hnone⟩
      by_cases hg : ∃ c ps, Grammatical v c ps
      · obtain ⟨c, ps, hg⟩ := hg
        obtain ⟨req, id, heq, -⟩ := hall c ps hg
        cases heq
      · cases hnone fun c ps h => hg ⟨c, ps, h⟩

/-- The body `[]`: `operator[]` is called on an array. -/
theorem decode_not_conforms : ¬ ∀ parse buf, Conforms parse buf := by
  intro h
  obtain ⟨-, hnone⟩ := h (fun _ => some (.array [])) (ascii "[]")
  cases hnone fun c ps hg => by
    obtain ⟨ms, m, hm, -⟩ := hg
    cases hm.1

end Domq.Mq
