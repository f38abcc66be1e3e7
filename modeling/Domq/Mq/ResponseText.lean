import Domq.Jsoncpp.Writer
import Domq.Mq.Reply
import Domq.Mq.RequestText

/-!
# From the text of a request to the text of its response

A worker's way from a body to the text it is answered with: `JsonRpcCoder::Decode`, `RunOnce`, the
`JsonEncode` of the result and `JsonRpcCoder::Encode`.

* `x` is what the call on `QueueMgr` returns, whatever it depends on.
* `ResponseTree req n x ms`: the object `ms` is the response to `req` with the id `n`.

Result: `respond_tree`: every text of a request that is no `CloseMsgQueue` is answered with a JSON
text of its response.
-/

namespace Domq.Mq

open Domq.Lib Domq.Netmgr Domq.Jsoncpp

/-! ## The worker -/

/-- The answer to a body: the text `JsonRpcCoder` encodes, where there is one. -/
def respond (scan : Bytes → Option Double) (depth : Nat) (addr : Bytes) (x : Ret)
    (serialNo msgNo : Int32) (handleId : UInt64) (body : Bytes) : Option Bytes :=
  match decodeText scan depth body with
  | some (.request req msgId) =>
    match processOne ⟨fun _ => .returns x, fun _ => .hangs⟩ 0 ⟨⟨addr, msgId⟩, .request req⟩ with
    | .push res => (Coder.jsonRpc .new).payload (res.netMessage serialNo msgNo handleId)
    | _ => none
  | _ => none

/-! ## The object -/

/-- The members of the object `EncodeResult` builds, in the order of its map. -/
def resultMembers (res : Result) (method : Bytes) (v : Value) : List (CStr × Value) :=
  (if 0 < res.errMsg.length then [(key "errmsg", Value.ofStdString res.errMsg)] else []) ++
    [(key "errno", .int res.error.toInt64), (key "id", .int res.context.msgId.toInt64),
      (key "method", .ofStdString method)] ++
    if v.isNull then [] else [(key "result", v)]

theorem encodeResult_eq {res : Result} {serialNo msgNo : Int32} {handleId : UInt64} {v : Value}
    (h : res.jsonEncode msgNo = some (0, v)) :
    encodeResult .new (res.netMessage serialNo msgNo handleId) res.error res.errMsg =
      some (0, .object
        (resultMembers res (JsonRpcCoder.new.getMethodName res.msgClass.typeName) v)) := by
  have hjson : (res.netMessage serialNo msgNo handleId).jsonEncode = some (0, v) := h
  have hid : (res.netMessage serialNo msgNo handleId).peer.msgId = res.context.msgId := rfl
  have htype : (res.netMessage serialNo msgNo handleId).typeName = res.msgClass.typeName := rfl
  have hset : ∀ (ms : List (CStr × Value)) (k : String) (x : Value),
      (Value.object ms).set k x = some (.object (setMember (key k) x ms)) := fun _ _ _ => rfl
  have herrno : ∀ x y, setMember (key "errno") x [(key "id", y)] =
      [(key "errno", x), (key "id", y)] := fun _ _ => rfl
  have herrmsg : ∀ x y z, setMember (key "errmsg") x [(key "errno", y), (key "id", z)] =
      [(key "errmsg", x), (key "errno", y), (key "id", z)] := fun _ _ _ => rfl
  unfold encodeResult
  rw [hjson, hid, htype]
  generalize JsonRpcCoder.new.getMethodName res.msgClass.typeName = method
  unfold resultMembers
  have hnull : Value.null.set "id" (.int res.context.msgId.toInt64) =
      some (.object [(key "id", .int res.context.msgId.toInt64)]) := rfl
  by_cases he : 0 < res.errMsg.length
  · simp only [he, if_true, hnull, hset, herrno, herrmsg, Option.bind_eq_bind, Option.bind_some]
    cases hv : v.isNull with
    | true =>
      simp only [if_true]
      rfl
    | false =>
      simp only [Bool.false_eq_true, if_false]
      rfl
  · simp only [he, if_false, hnull, hset, herrno, Option.bind_eq_bind, Option.bind_some]
    cases hv : v.isNull with
    | true =>
      simp only [if_true]
      rfl
    | false =>
      simp only [Bool.false_eq_true, if_false]
      rfl

/-- `JsonEncode` of a result gives nothing, a session code, or a message. -/
inductive Encodes (res : Result) (msgNo : Int32) : Value → Prop
  | null : Encodes res msgNo .null
  | code (h : res.msgClass = .openMsgQueueResult) (he : res.error = 0) :
      Encodes res msgNo (.object [(key "msgQueueCode", .ofStdString res.msgQueueCode)])
  | data (h : res.msgClass = .getMsgResult) (he : res.error = Int32.ofInt SUCCESS) :
      Encodes res msgNo
        (.object [(key "data", .ofStdString res.data), (key "msgNo", .int msgNo.toInt64)])

theorem jsonEncode_cases {res : Result} (h : res.msgClass.isResult) (msgNo : Int32) :
    ∃ v, res.jsonEncode msgNo = some (0, v) ∧ Encodes res msgNo v ∧
      (res.msgClass = .openMsgQueueResult → res.error = 0 →
        v = .object [(key "msgQueueCode", .ofStdString res.msgQueueCode)]) ∧
      (res.msgClass = .getMsgResult → res.error = Int32.ofInt SUCCESS →
        v = .object [(key "data", .ofStdString res.data), (key "msgNo", .int msgNo.toInt64)]) := by
  unfold Result.jsonEncode
  rcases h with h | h | h | h
  · rw [h]
    by_cases he : res.error = 0
    · exact ⟨_, by simp [he]; rfl, .code h he, fun _ _ => rfl, fun h' => absurd h' (by decide)⟩
    · exact ⟨.null, by simp [he], .null, fun _ h' => absurd h' he, fun h' => absurd h' (by decide)⟩
  · rw [h]
    exact ⟨.null, rfl, .null, fun h' => absurd h' (by decide), fun h' => absurd h' (by decide)⟩
  · rw [h]
    by_cases he : res.error = Int32.ofInt SUCCESS
    · exact ⟨_, by simp [he]; rfl, .data h he, fun h' => absurd h' (by decide), fun _ _ => rfl⟩
    · exact ⟨.null, by simp [he], .null, fun h' => absurd h' (by decide), fun _ h' => absurd h' he⟩
  · rw [h]
    exact ⟨.null, rfl, .null, fun h' => absurd h' (by decide), fun h' => absurd h' (by decide)⟩

/-! ## The text -/

theorem Encodes.wellFormed {res : Result} {msgNo : Int32} {v : Value} (h : Encodes res msgNo v) :
    WellFormed v := by
  cases h with
  | null => trivial
  | code => exact ⟨⟨trivial, trivial⟩, List.pairwise_singleton _ _⟩
  | data => exact ⟨⟨trivial, trivial, trivial⟩, (by decide : InOrder ["data", "msgNo"])⟩

theorem wellFormed_resultMembers {res : Result} {msgNo : Int32} {v : Value}
    (h : Encodes res msgNo v) (method : Bytes) :
    WellFormed (.object (resultMembers res method v)) := by
  have hv := h.wellFormed
  unfold resultMembers
  by_cases he : 0 < res.errMsg.length
  · cases hn : v.isNull with
    | true =>
      simp only [he, if_true]
      exact ⟨⟨trivial, trivial, trivial, trivial, trivial⟩,
        (by decide : InOrder ["errmsg", "errno", "id", "method"])⟩
    | false =>
      simp only [he, if_true, Bool.false_eq_true, if_false]
      exact ⟨⟨trivial, trivial, trivial, trivial, hv, trivial⟩,
        (by decide : InOrder ["errmsg", "errno", "id", "method", "result"])⟩
  · cases hn : v.isNull with
    | true =>
      simp only [he, if_false, if_true]
      exact ⟨⟨trivial, trivial, trivial, trivial⟩,
        (by decide : InOrder ["errno", "id", "method"])⟩
    | false =>
      simp only [he, if_false, Bool.false_eq_true]
      exact ⟨⟨trivial, trivial, trivial, hv, trivial⟩,
        (by decide : InOrder ["errno", "id", "method", "result"])⟩

/-- The text of a result. -/
theorem payload_result {res : Result} (h : res.msgClass.isResult) {serialNo msgNo : Int32}
    {handleId : UInt64} {v : Value} (hv : res.jsonEncode msgNo = some (0, v)) :
    (Coder.jsonRpc .new).payload (res.netMessage serialNo msgNo handleId) =
      some (Value.object
        (resultMembers res (JsonRpcCoder.new.getMethodName res.msgClass.typeName) v)).write := by
  have hkind : (res.netMessage serialNo msgNo handleId).kind = .result res.error res.errMsg :=
    Result.kind_of_isResult h
  simp [Coder.payload, jsonRpcData, hkind, encodeResult_eq hv]

/-! ## Members of what is written -/

theorem treeMembers_eq (ms : List (CStr × Value)) :
    treeMembers ms = ms.map fun m => (m.1.bytes, tree m.2) := by
  induction ms with
  | nil => rfl
  | cons m ms ih =>
    obtain ⟨n, v⟩ := m
    rw [treeMembers, ih, List.map_cons]

theorem lastMember_treeMembers (ms : List (CStr × Value)) (k : String) :
    lastMember (treeMembers ms) k =
      (ms.reverse.find? fun m => m.1 = key k).map fun m => tree m.2 := by
  unfold lastMember
  rw [treeMembers_eq, ← List.map_reverse, List.find?_map]
  simp [Function.comp_def]

theorem isString_ofStdString {s : Bytes} (h : s.length < 2 ^ 32 - 1) :
    IsString (some (tree (.ofStdString s))) (CStr.ofBytes s) := by
  have hmod : s.length % 2 ^ 32 = s.length := Nat.mod_eq_of_lt (by omega)
  refine ⟨(CStr.ofBytes s).bytes, ?_, CStr.ofBytes_bytes _⟩
  unfold Value.ofStdString
  simp only [hmod]
  rw [if_neg (by omega), List.take_length, tree]

/-- Of members in the order of the map every one counts. -/
theorem lastMember_of_mem {ms : List (CStr × Value)} {k : String} {v : Value}
    (h : (ms.map fun m => m.1.bytes).Pairwise (· < ·)) (hm : (key k, v) ∈ ms) :
    lastMember (treeMembers ms) k = some (tree v) := by
  have hnodup : (ms.map fun m => m.1.bytes).Nodup := h.imp fun hlt heq => by
    rw [heq] at hlt
    exact List.lt_irrefl _ hlt
  rw [lastMember_treeMembers]
  cases hfind : ms.reverse.find? fun m => m.1 = key k with
  | none =>
    have := List.find?_eq_none.mp hfind (key k, v) (List.mem_reverse.mpr hm)
    simp at this
  | some m =>
    have hmem := List.mem_reverse.mp (List.mem_of_find?_eq_some hfind)
    have hname : m.1 = key k := by simpa using List.find?_some hfind
    have heq := List.inj_on_of_nodup_map hnodup hmem hm (by rw [hname])
    rw [heq]
    rfl

theorem lastMember_eq_none {ms : List (CStr × Value)} {k : String}
    (h : ∀ m ∈ ms, m.1 ≠ key k) : lastMember (treeMembers ms) k = none := by
  rw [lastMember_treeMembers, List.find?_eq_none.mpr, Option.map_none]
  intro m hm
  simpa using h m (List.mem_reverse.mp hm)

/-! ## The response -/

/-- The members of an object are the response to a request with the id `n` whose call returned `x`.
-/
structure ResponseTree (req : Request) (n : Int) (x : Ret) (ms : List (Bytes × Tree)) : Prop where
  id : IsIntegerTree (lastMember ms "id") (Int64.ofInt n).toInt
  method : IsString (lastMember ms "method") (key req.msgClass.method)
  errno : IsIntegerTree (lastMember ms "errno") (Int32.ofInt x.1).toInt
  errmsg : lastMember ms "errmsg" = none ↔ x.1 = SUCCESS
  code : req.msgClass = .openMsgQueueRequest → x.1 = SUCCESS →
    ∃ rs, lastMember ms "result" = some (.object rs) ∧
      IsString (lastMember rs "msgQueueCode") (CStr.ofBytes (x.2.getD []))
  data : req.msgClass = .getMsgRequest → x.1 = SUCCESS →
    ∃ rs, lastMember ms "result" = some (.object rs) ∧
      IsString (lastMember rs "data") (CStr.ofBytes (x.2.getD []))
  result : req.msgClass = .sendMsgRequest ∨ Int32.ofInt x.1 ≠ 0 → lastMember ms "result" = none

theorem msgQueueError_ne_nil (error : Int) : msgQueueError error ≠ [] := by
  unfold msgQueueError
  repeat' refine iteInduction (motive := fun e : Bytes => e ≠ []) (fun _ => by decide) fun _ => ?_
  decide

/-- What `ProcessMsg` puts into the result of a request. -/
theorem result_fields (r : MsgContext × Request) (x : Ret) :
    (Request.result r x).msgClass = r.2.resultClass ∧ (Request.result r x).context = r.1 ∧
      (Request.result r x).error = Int32.ofInt x.1 ∧
      ((Request.result r x).errMsg = [] ↔ x.1 = SUCCESS) ∧
      (r.2.msgClass = .openMsgQueueRequest →
        (Request.result r x).msgQueueCode = x.2.getD []) ∧
      (r.2.msgClass = .getMsgRequest → x.1 = SUCCESS →
        (Request.result r x).data = x.2.getD []) := by
  obtain ⟨ctx, req⟩ := r
  have hne := msgQueueError_ne_nil x.1
  have hlit : ascii "msqeueue is not exist" ≠ [] := by decide
  cases req with
  | openMsgQueue =>
    unfold Request.result processOpenMsgQueue
    generalize msgQueueError x.1 = e at hne
    generalize ascii "msqeueue is not exist" = l at hlit
    by_cases hs : x.1 = SUCCESS
    · simp [hs, Result.new, Request.resultClass, Request.msgClass]
    · by_cases hn : x.1 = NO_EXIST
      · have hno : NO_EXIST ≠ SUCCESS := by decide
        simp [hn, hno, hlit, Result.new, Request.resultClass, Request.msgClass]
      · simp [hs, hn, hne, Result.new, Request.resultClass, Request.msgClass]
  | closeMsgQueue =>
    unfold Request.result processStatus
    generalize msgQueueError x.1 = e at hne
    by_cases hs : x.1 = SUCCESS
    · simp [hs, Result.new, Request.resultClass, Request.msgClass]
    · simp [hs, hne, Result.new, Request.resultClass, Request.msgClass]
  | getMsg =>
    unfold Request.result processGetMsg
    generalize msgQueueError x.1 = e at hne
    by_cases hs : x.1 = SUCCESS
    · simp [hs, Result.new, Request.resultClass, Request.msgClass]
    · simp [hs, hne, Result.new, Request.resultClass, Request.msgClass]
  | sendMsg =>
    unfold Request.result processStatus
    generalize msgQueueError x.1 = e at hne
    by_cases hs : x.1 = SUCCESS
    · simp [hs, Result.new, Request.resultClass, Request.msgClass]
    · simp [hs, hne, Result.new, Request.resultClass, Request.msgClass]

/-- Where a result class comes from, `JsonRpcCoder` finds the method again. -/
theorem getMethodName_result (req : Request) :
    JsonRpcCoder.new.getMethodName req.resultClass.typeName = (key req.msgClass.method).bytes := by
  have h : ∀ c r : MsgClass, c.typeName = ascii c.method ++ ascii "Request" →
      r.typeName = ascii c.method ++ ascii "Result" → ¬ ascii "Request" <:+: ascii c.method →
      (key c.method).bytes = ascii c.method →
      JsonRpcCoder.new.getMethodName r.typeName = (key c.method).bytes := by
    intro c r _ hr hword hkey
    rw [hr, hkey]
    exact (JsonRpcCoder.getMethodName_result_iff _).mpr hword
  cases req with
  | openMsgQueue => exact h .openMsgQueueRequest _ rfl rfl (by decide) rfl
  | closeMsgQueue => exact h .closeMsgQueueRequest _ rfl rfl (by decide) rfl
  | getMsg => exact h .getMsgRequest _ rfl rfl (by decide) rfl
  | sendMsg => exact h .sendMsgRequest _ rfl rfl (by decide) rfl

theorem isResult_resultClass (req : Request) : req.resultClass.isResult := by
  cases req with
  | openMsgQueue => exact .inl rfl
  | closeMsgQueue => exact .inr (.inl rfl)
  | getMsg => exact .inr (.inr (.inl rfl))
  | sendMsg => exact .inr (.inr (.inr rfl))

section

variable {req : Request} {n : Int} {x : Ret} {res : Result} {msgNo : Int32} {v : Value}

/-- The members that every result has, and the two that only some have. -/
theorem mem_resultMembers (res : Result) (method : Bytes) (v : Value) :
    (key "errno", .int res.error.toInt64) ∈ resultMembers res method v ∧
      (key "id", .int res.context.msgId.toInt64) ∈ resultMembers res method v ∧
      (key "method", Value.ofStdString method) ∈ resultMembers res method v ∧
      (res.errMsg ≠ [] →
        (key "errmsg", Value.ofStdString res.errMsg) ∈ resultMembers res method v) ∧
      (v.isNull = false → (key "result", v) ∈ resultMembers res method v) := by
  unfold resultMembers
  refine ⟨by simp, by simp, by simp, fun h => ?_, fun h => ?_⟩
  · rw [if_pos (List.length_pos_of_ne_nil h)]
    simp
  · simp [h]

theorem not_mem_resultMembers {res : Result} {method : Bytes} {v : Value} :
    (res.errMsg = [] → ∀ m ∈ resultMembers res method v, m.1 ≠ key "errmsg") ∧
      (v.isNull = true → ∀ m ∈ resultMembers res method v, m.1 ≠ key "result") := by
  have hnames : ∀ {ms : List (CStr × Value)} {k : CStr}, k ∉ ms.map Prod.fst →
      ∀ m ∈ ms, m.1 ≠ k := fun hk m hm h => hk (h ▸ List.mem_map_of_mem hm)
  unfold resultMembers
  refine ⟨fun h => hnames ?_, fun h => hnames ?_⟩
  · rw [if_neg (by simp [h])]
    cases v.isNull with
    | true => exact (by decide : key "errmsg" ∉ [key "errno", key "id", key "method"])
    | false =>
      exact (by decide : key "errmsg" ∉ [key "errno", key "id", key "method", key "result"])
  · rw [if_pos h]
    by_cases he : 0 < res.errMsg.length
    · rw [if_pos he]
      exact (by decide : key "result" ∉ [key "errmsg", key "errno", key "id", key "method"])
    · rw [if_neg he]
      exact (by decide : key "result" ∉ [key "errno", key "id", key "method"])

/-- The members of a result are those of the response. -/
theorem responseTree_resultMembers {addr : Bytes}
    (hres : res = Request.result (⟨addr, (Int64.ofInt n).toUInt64⟩, req) x)
    (hv : res.jsonEncode msgNo = some (0, v))
    (hx : req.msgClass = .openMsgQueueRequest ∨ req.msgClass = .getMsgRequest → x.1 = SUCCESS →
      (x.2.getD []).length < 2 ^ 32 - 1) :
    ResponseTree req n x
      (treeMembers (resultMembers res (key req.msgClass.method).bytes v)) := by
  obtain ⟨hclass, hctx, herror, herrmsg, hcode, hdata⟩ :=
    result_fields (⟨addr, (Int64.ofInt n).toUInt64⟩, req) x
  rw [← hres] at hclass hctx herror herrmsg hcode hdata
  obtain ⟨v', hv', hencodes, hopen, hget⟩ :=
    jsonEncode_cases (show res.msgClass.isResult by rw [hclass]; exact isResult_resultClass req)
      msgNo
  rw [hv] at hv'
  cases hv'
  have hsorted := (wellFormed_resultMembers hencodes (key req.msgClass.method).bytes).2
  obtain ⟨hmerrno, hmid, hmmethod, hmerrmsg, hmresult⟩ :=
    mem_resultMembers res (key req.msgClass.method).bytes v
  obtain ⟨hnerrmsg, hnresult⟩ :=
    @not_mem_resultMembers res (key req.msgClass.method).bytes v
  have hid : res.context.msgId.toInt64 = Int64.ofInt n := by
    rw [hctx]
    exact Int64.toInt64_toUInt64 _
  have hinner : ∀ (inner : List (CStr × Value)) (k : String) (s : Bytes),
      v = .object inner → (inner.map fun m => m.1.bytes).Pairwise (· < ·) →
      (key k, Value.ofStdString s) ∈ inner → s.length < 2 ^ 32 - 1 →
      ∃ rs,
        lastMember (treeMembers (resultMembers res (key req.msgClass.method).bytes v)) "result" =
          some (.object rs) ∧ IsString (lastMember rs k) (CStr.ofBytes s) := by
    intro inner k s hobj hsort hmem hlen
    refine ⟨treeMembers inner, ?_, ?_⟩
    · rw [lastMember_of_mem hsorted (hmresult (by rw [hobj]; rfl)), hobj, tree]
    · rw [lastMember_of_mem hsort hmem]
      exact isString_ofStdString hlen
  refine ⟨?_, ?_, ?_, ?_, fun hreq hs => ?_, fun hreq hs => ?_, fun hnone => ?_⟩
  · rw [lastMember_of_mem hsorted hmid, hid]
    exact isIntegerTree_int _
  · rw [lastMember_of_mem hsorted hmmethod]
    have hshort : (key req.msgClass.method).bytes.length < 2 ^ 32 - 1 := by
      cases req.msgClass <;> decide
    have := isString_ofStdString hshort
    rwa [CStr.ofBytes_bytes] at this
  · rw [lastMember_of_mem hsorted hmerrno, ← herror]
    have := isIntegerTree_int res.error.toInt64
    rwa [Int32.toInt_toInt64] at this
  · rw [← herrmsg]
    constructor
    · intro hnone
      by_contra hne
      rw [lastMember_of_mem hsorted (hmerrmsg hne)] at hnone
      cases hnone
    · exact fun hnil => lastMember_eq_none (hnerrmsg hnil)
  · have hclass' : res.msgClass = .openMsgQueueResult := by
      rw [hclass]
      cases req with
      | openMsgQueue => rfl
      | _ => cases hreq
    have hobj := hopen hclass' (by rw [herror, hs]; rfl)
    rw [hcode hreq] at hobj
    exact hinner _ "msgQueueCode" _ hobj (List.pairwise_singleton _ _) (by simp)
      (hx (.inl hreq) hs)
  · have hclass' : res.msgClass = .getMsgResult := by
      rw [hclass]
      cases req with
      | getMsg => rfl
      | _ => cases hreq
    have hobj := hget hclass' (by rw [herror, hs])
    rw [hdata hreq hs] at hobj
    exact hinner _ "data" _ hobj (by decide : InOrder ["data", "msgNo"]) (by simp)
      (hx (.inr hreq) hs)
  · refine lastMember_eq_none (hnresult ?_)
    have hzero : Int32.ofInt SUCCESS = 0 := rfl
    cases hencodes with
    | null => rfl
    | code h he =>
      rcases hnone with hsend | hne
      · cases req with
        | sendMsg =>
          exact nomatch (hclass.symm.trans h : MsgClass.sendMsgResult = .openMsgQueueResult)
        | _ => cases hsend
      · exact absurd (herror.symm.trans he) hne
    | data h he =>
      rcases hnone with hsend | hne
      · cases req with
        | sendMsg => exact nomatch (hclass.symm.trans h : MsgClass.sendMsgResult = .getMsgResult)
        | _ => cases hsend
      · exact absurd (herror.symm.trans (he.trans hzero)) hne

end

/-- A text of a request that is no `CloseMsgQueue` is answered with a text of its response. -/
theorem respond_tree {scan : Bytes → Option Double} (hscan : ∀ t, IsNumber t → (scan t).isSome)
    {body : Bytes} {v : Tree} (hbody : JsonText body v) (hlen : body.length < 2 ^ 31) {depth : Nat}
    (hdepth : v.depth ≤ depth) (hnumbers : ∀ t ∈ v.numbers, t.length ≠ 32) {req : Request} {n : Int}
    (hreq : RequestTree v req n) (hclose : req.msgClass ≠ .closeMsgQueueRequest) (addr : Bytes)
    {x : Ret}
    (hx : req.msgClass = .openMsgQueueRequest ∨ req.msgClass = .getMsgRequest → x.1 = SUCCESS →
      (x.2.getD []).length < 2 ^ 32 - 1) (serialNo msgNo : Int32) (handleId : UInt64) :
    ∃ text ms, respond scan depth addr x serialNo msgNo handleId body = some text ∧
      JsonText text (.object ms) ∧ ResponseTree req n x ms := by
  have hpush := processOne_request ⟨fun _ => .returns x, fun _ => .hangs⟩ 0
    (r := (⟨addr, (Int64.ofInt n).toUInt64⟩, req)) hclose
  set res := Request.result (⟨addr, (Int64.ofInt n).toUInt64⟩, req) x with hres
  have hclass : res.msgClass = req.resultClass := (result_fields _ x).1
  have hresult : res.msgClass.isResult := by
    rw [hclass]
    exact isResult_resultClass req
  obtain ⟨val, hval, hencodes, -, -⟩ := jsonEncode_cases hresult msgNo
  have hmethod : JsonRpcCoder.new.getMethodName res.msgClass.typeName =
      (key req.msgClass.method).bytes := by
    rw [hclass, getMethodName_result]
  refine ⟨_, _, ?_, (write_denotes _
    (wellFormed_resultMembers hencodes (key req.msgClass.method).bytes)).jsonText,
    responseTree_resultMembers hres hval hx⟩
  unfold respond
  rw [decodeText_tree hscan hbody hlen hdepth hnumbers hreq]
  show (match processOne _ 0 (Request.message (⟨addr, (Int64.ofInt n).toUInt64⟩, req)) with
    | .push res => (Coder.jsonRpc .new).payload (res.netMessage serialNo msgNo handleId)
    | _ => none) = _
  rw [hpush]
  dsimp only
  rw [payload_result hresult hval, hmethod]

end Domq.Mq
