import Domq.Jsoncpp.Writer
import Domq.Netmgr.Frame

/-!
# Requests as JSON texts

`JsonRpcCoder::Decode` behind `Json::Reader`: what it makes of a body that is a JSON text.

* `decodeText` is `Decode` of a body; there is no result where the reader overruns its buffer or its
  stack.
* `RequestTree v req n`: the JSON value `v` is the request `req` with the id `n`: an object with the
  method, the parameters and the id, in any order, among any others. Of members with one name the
  last counts. A string counts up to its first NUL, and an integer is written without fraction and
  exponent.

Result: `decodeText_request`: every text of a request is decoded to it.
-/

namespace Domq.Mq

open Domq.Lib Domq.Jsoncpp

/-! ## `Decode` of a body -/

/-- `JsonRpcCoder::Decode`, with the reader of jsoncpp. -/
def decodeText (scan : Bytes → Option Double) (depth : Nat) (buf : Bytes) : Option Decoded :=
  match parse scan depth buf with
  | .ok root _ => some (decode (fun _ => some root) buf)
  | .failed _ => some .null
  | .overrun => none
  | .deep => none
  | .diverges => none

/-! ## Requests -/

/-- The member with a name; of several the last one. -/
def lastMember (ms : List (Bytes × Tree)) (k : String) : Option Tree :=
  (ms.reverse.find? fun m => CStr.ofBytes m.1 = key k).map Prod.snd

/-- A string that is `s` up to its first NUL. -/
def IsString (v : Option Tree) (s : CStr) : Prop := ∃ b, v = some (.string b) ∧ CStr.ofBytes b = s

/-- The integer `n`. -/
def IsIntegerTree (v : Option Tree) (n : Int) : Prop :=
  ∃ t, v = some (.number t) ∧ plainInteger t = true ∧ decimal t = n

/-- The parameters of a request. -/
def ParamsTree (ps : List (Bytes × Tree)) : Request → Prop
  | .openMsgQueue msgQueueName role create option duration clientName =>
    IsString (lastMember ps "msgQueueName") msgQueueName ∧
      IsIntegerTree (lastMember ps "role") role.toInt ∧
      IsIntegerTree (lastMember ps "option") option.toInt ∧
      IsIntegerTree (lastMember ps "duration") duration.toInt ∧
      IsIntegerTree (lastMember ps "create") create.toInt ∧
      IsString (lastMember ps "clientName") clientName
  | .closeMsgQueue msgQueueCode => IsString (lastMember ps "msgQueueCode") msgQueueCode
  | .getMsg msgQueueCode autoReply =>
    IsString (lastMember ps "msgQueueCode") msgQueueCode ∧
      IsIntegerTree (lastMember ps "autoReply") (if autoReply then 1 else 0)
  | .sendMsg msgQueueCode msgData =>
    IsString (lastMember ps "msgQueueCode") msgQueueCode ∧
      IsString (lastMember ps "msgData") msgData

/-- The method whose request class this is. -/
def MsgClass.method : MsgClass → String
  | .openMsgQueueRequest => "OpenMsgQueue"
  | .closeMsgQueueRequest => "CloseMsgQueue"
  | .getMsgRequest => "GetMsg"
  | .sendMsgRequest => "SendMsg"
  | _ => ""

/-- The JSON value is the request, with this id. -/
def RequestTree (v : Tree) (req : Request) (n : Int) : Prop :=
  ∃ ms ps, v = .object ms ∧ IsString (lastMember ms "method") (key req.msgClass.method) ∧
    lastMember ms "params" = some (.object ps) ∧ ParamsTree ps req ∧
    IsIntegerTree (lastMember ms "id") n ∧ Kept n

/-! ## Members -/

theorem member_insertMember (n k : CStr) (x : Json) (ms : List (CStr × Json)) :
    member (insertMember n x ms) k = if n = k then some x else member ms k := by
  induction ms with
  | nil =>
    by_cases h : n = k
    · simp [insertMember, member, h]
    · simp [insertMember, member, h]
  | cons m ms ih =>
    obtain ⟨n', v⟩ := m
    unfold member at ih ⊢
    rw [insertMember]
    split
    · next heq =>
      subst heq
      by_cases h : n = k
      · simp [h]
      · simp [h]
    · next hne =>
      split
      · by_cases h : n = k
        · simp [h]
        · simp [h]
      · rw [List.find?_cons, List.find?_cons]
        by_cases h' : n' = k
        · have hnk : n ≠ k := fun h => hne (h.trans h'.symm)
          simp [h', hnk]
        · simp only [h', decide_false]
          exact ih

theorem member_loadMembers (scan : Bytes → Option Double) (ms : List (Bytes × Tree))
    (members : List (CStr × Json)) (k : String) :
    member (loadMembers scan members ms) (key k) =
      ((lastMember ms k).map (load scan)).or (member members (key k)) := by
  induction ms generalizing members with
  | nil => simp [loadMembers, lastMember]
  | cons m ms ih =>
    obtain ⟨n, v⟩ := m
    rw [loadMembers, ih, member_insertMember]
    unfold lastMember
    rw [List.reverse_cons, List.find?_append]
    cases ms.reverse.find? fun m => CStr.ofBytes m.1 = key k with
    | some m => simp
    | none =>
      by_cases h : CStr.ofBytes n = key k
      · simp [h]
      · simp [h]

/-- A member of an object as it is read. -/
theorem member_load (scan : Bytes → Option Double) (ms : List (Bytes × Tree)) (k : String) :
    member (loadMembers scan [] ms) (key k) = (lastMember ms k).map (load scan) := by
  rw [member_loadMembers]
  simp [member]

/-! ## Fields -/

section

variable {scan : Bytes → Option Double} {ms : List (Bytes × Tree)} {k : String}

theorem member_string {s : CStr} (h : IsString (lastMember ms k) s) :
    member (loadMembers scan [] ms) (key k) = some (.string s) := by
  obtain ⟨b, hb, rfl⟩ := h
  rw [member_load, hb]
  simp [load]

theorem member_integer {n : Int} (h : IsIntegerTree (lastMember ms k) n) (hn : Kept n) :
    member (loadMembers scan [] ms) (key k) = some (integerValue n) := by
  obtain ⟨t, ht, hplain, rfl⟩ := h
  rw [member_load, ht]
  simp [load, loadNumber, hplain, hn]

theorem getString_of {s : CStr} (h : IsString (lastMember ms k) s) :
    getString (.object (loadMembers scan [] ms)) k = .ok s := by
  unfold getString
  simp only [Json.get, member_string h]
  rfl

theorem getInt_of {n : Int} (h : IsIntegerTree (lastMember ms k) n)
    (hlo : -9223372036854775799 ≤ n) (hhi : n ≤ 2 ^ 63 - 1) :
    getInt (.object (loadMembers scan [] ms)) k = .ok (Int64.ofInt n) := by
  unfold getInt
  simp only [Json.get, member_integer h ⟨hlo, by omega⟩, integerValue, if_pos hhi]
  rfl

/-- A field of type `int`. -/
theorem getInt_int32 (scan : Bytes → Option Double) {n : Int32}
    (h : IsIntegerTree (lastMember ms k) n.toInt) :
    ∃ m, getInt (.object (loadMembers scan [] ms)) k = .ok m ∧ m.toInt32 = n := by
  have hlo := n.le_toInt
  have hhi := n.toInt_lt
  refine ⟨_, getInt_of h (by omega) (by omega), ?_⟩
  simp

end

/-! ## The request -/

/-- `JsonDecode` of the parameters. -/
theorem jsonDecode_params_tree {scan : Bytes → Option Double} {ps : List (Bytes × Tree)}
    {req : Request} (h : ParamsTree ps req) :
    jsonDecode req.msgClass (.object (loadMembers scan [] ps)) = .ok req := by
  cases req with
  | openMsgQueue name role create option duration client =>
    obtain ⟨hname, hrole, hoption, hduration, hcreate, hclient⟩ := h
    obtain ⟨r, hr, rfl⟩ := getInt_int32 scan hrole
    obtain ⟨o, ho, rfl⟩ := getInt_int32 scan hoption
    obtain ⟨d, hd, rfl⟩ := getInt_int32 scan hduration
    obtain ⟨c, hc, rfl⟩ := getInt_int32 scan hcreate
    show openMsgQueueRequestJsonDecode _ = _
    unfold openMsgQueueRequestJsonDecode
    rw [getString_of hname, hr, ho, hd, hc, getString_of hclient]
    rfl
  | closeMsgQueue code =>
    show closeMsgQueueRequestJsonDecode _ = _
    unfold closeMsgQueueRequestJsonDecode
    rw [getString_of h]
    rfl
  | getMsg code autoReply =>
    obtain ⟨hcode, hauto⟩ := h
    have hint := @getInt_of scan _ _ _ hauto (by split <;> decide) (by split <;> decide)
    show getMsgRequestJsonDecode _ = _
    unfold getMsgRequestJsonDecode
    rw [getString_of hcode, hint]
    cases autoReply <;> rfl
  | sendMsg code data =>
    obtain ⟨hcode, hdata⟩ := h
    show sendMsgRequestJsonDecode _ = _
    unfold sendMsgRequestJsonDecode
    rw [getString_of hdata, getString_of hcode]
    rfl

/-- The id of a request, modulo `2 ^ 64`. -/
theorem asInt_integerValue {n : Int} (h : -9223372036854775799 ≤ n) :
    (integerValue n).asInt = Int64.ofInt n := by
  unfold integerValue
  split
  · rfl
  · obtain ⟨k, rfl⟩ : ∃ k : Nat, n = k := ⟨n.toNat, by omega⟩
    rw [Int64.ofInt_eq_ofNat, Int.toNat_natCast]
    rfl

theorem Request.isRequest (req : Request) : req.msgClass.isRequest := by
  cases req with
  | openMsgQueue => exact .inl rfl
  | closeMsgQueue => exact .inr (.inl rfl)
  | getMsg => exact .inr (.inr (.inr rfl))
  | sendMsg => exact .inr (.inr (.inl rfl))

theorem create_method {c : MsgClass} (h : c.isRequest) :
    globalMsgFactory.create (getReqClassName (key c.method)) = some c := by
  refine create_request_iff.mpr ⟨h, ?_⟩
  rcases h with rfl | rfl | rfl | rfl <;> decide

/-- `Decode` of the value of a request. -/
theorem decodeValue_tree {scan : Bytes → Option Double} {v : Tree} {req : Request} {n : Int}
    (h : RequestTree v req n) :
    decodeValue (load scan v) = .ok (req, (Int64.ofInt n).toUInt64) := by
  obtain ⟨ms, ps, rfl, hmethod, hparams, hps, hid, hn⟩ := h
  have hhas : HasMethod (.object (loadMembers scan [] ms)) (loadMembers scan [] ms)
      (key req.msgClass.method) := ⟨rfl, member_string hmethod⟩
  have hp : member (loadMembers scan [] ms) (key "params") =
      some (.object (loadMembers scan [] ps)) := by
    rw [member_load, hparams]
    simp [load]
  rw [load, decodeValue_method hhas, create_method req.isRequest]
  dsimp only
  rw [decodeRequest_object, hp, Option.getD_some, jsonDecode_params_tree hps, member_integer hid hn,
    Option.getD_some, asInt_integerValue hn.1]
  rfl

/-- A text of a request is decoded to it, where the stack has room for it and no number in it has 32
characters. -/
theorem decodeText_tree {scan : Bytes → Option Double} (hscan : ∀ t, IsNumber t → (scan t).isSome)
    {body : Bytes} {v : Tree} (hbody : JsonText body v) (hlen : body.length < 2 ^ 31) {depth : Nat}
    (hdepth : v.depth ≤ depth) (hnumbers : ∀ t ∈ v.numbers, t.length ≠ 32) {req : Request} {n : Int}
    (h : RequestTree v req n) :
    decodeText scan depth body = some (.request req ((Int64.ofInt n).toUInt64)) := by
  have hparse := parse_jsonText hscan hbody hlen depth
  rw [fate_eq_fine.mpr ⟨hdepth, hnumbers⟩] at hparse
  rw [decodeText, hparse]
  show some (decode (fun _ => some (load scan v)) body) = _
  rw [decode]
  simp only [decodeValue_tree h]

/-! ## A connection -/

/-- Whether `Decode` has a message for a body. -/
def decodable (scan : Bytes → Option Double) (depth : Nat) (buf : Bytes) : Bool :=
  match decodeText scan depth buf with
  | some (.request _ _) => true
  | _ => false

/-- The outcome of the `i`-th `Decode` on a connection, when it is given the `i`-th body. -/
def decodeAnswers (scan : Bytes → Option Double) (depth : Nat) (bodies : List Bytes) (i : Nat) :
    Bool := decodable scan depth (bodies.getD i [])

/-- A request as a client may write it, for a reader with room for `depth` calls. -/
structure WireRequest (depth : Nat) where
  body : Bytes
  tree : Tree
  req : Request
  id : Int
  text : JsonText body tree
  fits : tree.depth ≤ depth
  numbers : ∀ t ∈ tree.numbers, t.length ≠ 32
  request : RequestTree tree req id

namespace WireRequest

variable {depth : Nat}

/-- What it is decoded to. -/
def decoded (r : WireRequest depth) : Decoded := .request r.req (Int64.ofInt r.id).toUInt64

theorem decodeText_eq {scan : Bytes → Option Double} (hscan : ∀ t, IsNumber t → (scan t).isSome)
    (r : WireRequest depth) (hlen : r.body.length < 2 ^ 31) :
    decodeText scan depth r.body = some r.decoded :=
  decodeText_tree hscan r.text hlen r.fits r.numbers r.request

theorem body_ne_nil (r : WireRequest depth) : r.body ≠ [] := by
  obtain ⟨w, t, w', -, ht, -, heq⟩ := r.text
  obtain ⟨c, ts, rfl, -, -⟩ := denotes_head ht
  rw [heq]
  simp

end WireRequest

/-! ### A client that writes as the server does -/

/-- The names are in the order of the map. -/
def InOrder (names : List String) : Prop := (names.map fun k => (key k).bytes).Pairwise (· < ·)

instance (names : List String) : Decidable (InOrder names) :=
  inferInstanceAs (Decidable (List.Pairwise _ _))

/-- The value of a request with these parameters. -/
def requestValue (req : Request) (id : Int64) (ps : List (CStr × Netmgr.Value)) :
    Netmgr.Value :=
  .object [(key "id", .int id), (key "method", .string (key req.msgClass.method)),
    (key "params", .object ps)]

theorem wellFormed_requestValue {req : Request} {id : Int64} {ps : List (CStr × Netmgr.Value)}
    (h : WellFormed (.object ps)) : WellFormed (requestValue req id ps) :=
  ⟨⟨trivial, trivial, h, trivial⟩, (by decide : InOrder ["id", "method", "params"])⟩

theorem isIntegerTree_int (n : Int64) : IsIntegerTree (some (tree (.int n))) n.toInt :=
  ⟨fmtInt n.toInt, by rw [tree], (isDouble_integer (isInteger_fmtInt n.toInt)).2, decimal_fmtInt _⟩

theorem requestTree_requestValue {req : Request} {id : Int64} {ps : List (CStr × Netmgr.Value)}
    (hid : Kept id.toInt) (hps : ParamsTree (treeMembers ps) req) :
    RequestTree (tree (requestValue req id ps)) req id.toInt :=
  ⟨_, _, rfl, ⟨_, rfl, CStr.ofBytes_bytes _⟩, rfl, hps, isIntegerTree_int id, hid⟩

/-- A request as `FastWriter` writes it. -/
def WireRequest.write {depth : Nat} (req : Request) (id : Int64) (ps : List (CStr × Netmgr.Value))
    (hid : Kept id.toInt) (hps : ParamsTree (treeMembers ps) req) (hw : WellFormed (.object ps))
    (hdepth : (Jsoncpp.tree (requestValue req id ps)).depth ≤ depth) : WireRequest depth where
  body := (requestValue req id ps).write
  tree := Jsoncpp.tree (requestValue req id ps)
  req := req
  id := id.toInt
  text := (write_denotes _ (wellFormed_requestValue hw)).jsonText
  fits := hdepth
  numbers := numbers_tree _ (wellFormed_requestValue hw)
  request := requestTree_requestValue hid hps

/-! ### Any requests -/

/-- **Requests on a connection.** The frames of any requests, written in any way and cut into pieces
in any way, are decoded to these requests, in their order; the connection stays open, and nothing is
left in its buffer. -/
theorem requests_received {scan : Bytes → Option Double}
    (hscan : ∀ t, IsNumber t → (scan t).isSome) {depth : Nat} {rs : List (WireRequest depth)}
    {chunks : List Bytes} (hlen : (Netmgr.stream (rs.map (·.body))).length < 2 ^ 31)
    (hchunks : ∀ chunk ∈ chunks, chunk.length ≤ Netmgr.RECV_SIZE)
    (hcut : chunks.flatten = Netmgr.stream (rs.map (·.body))) {fuel : Nat}
    (hfuel : (Netmgr.stream (rs.map (·.body))).length < fuel) :
    ∃ h, Netmgr.handleInputs fuel (decodeAnswers scan depth (rs.map (·.body))) chunks
        Netmgr.Handler.opened = some h ∧
      h.closed = false ∧ h.recvbuffer.data = [] ∧
      h.delivered.map (decodeText scan depth) = rs.map fun r => some r.decoded := by
  have hne : ∀ p ∈ rs.map (·.body), p ≠ [] := by
    intro p hp
    obtain ⟨r, -, rfl⟩ := List.mem_map.mp hp
    exact r.body_ne_nil
  have hshort : ∀ r ∈ rs, r.body.length < 2 ^ 31 := by
    intro r hr
    obtain ⟨l₁, l₂, rfl⟩ := List.append_of_mem hr
    rw [List.map_append, List.map_cons, Netmgr.stream_append, Netmgr.stream_cons,
      List.length_append, List.length_append, Netmgr.length_frame] at hlen
    omega
  have hdecodes : ∀ i < (rs.map (·.body)).length,
      decodeAnswers scan depth (rs.map (·.body)) i = true := by
    intro i hi
    have hi' : i < rs.length := by simpa using hi
    have hbody : (rs.map (·.body)).getD i [] = rs[i].body := by simp [hi']
    rw [decodeAnswers, hbody, decodable,
      rs[i].decodeText_eq hscan (hshort _ (List.getElem_mem hi'))]
    rfl
  obtain ⟨h, hrun, bs, r, hc, -, hdel, hcl, hdata⟩ :=
    Netmgr.received_handleInputs (m := []) hne hlen hfuel hchunks
      (Netmgr.received_opened (decodeAnswers scan depth (rs.map (·.body)))) (by simpa using hcut)
  rw [List.nil_append, hcut] at hc
  obtain ⟨rfl, rfl⟩ := hc.unique (Netmgr.cuts_stream hne (Netmgr.length_frame_lt hlen))
  have hall : Netmgr.accepted (decodeAnswers scan depth (rs.map (·.body))) 0 (rs.map (·.body)) =
      rs.map (·.body) := by
    refine Netmgr.accepted_of_ok fun i hi => ?_
    rw [Nat.zero_add]
    exact hdecodes i hi
  rw [hall] at hdel hcl
  have hopen := hcl.mpr rfl
  refine ⟨h, hrun, hopen, hdata hopen, ?_⟩
  rw [hdel, List.map_map]
  exact List.map_congr_left fun r hr => r.decodeText_eq hscan (hshort r hr)

def requestCode : CStr := ⟨hexText (List.replicate 16 1), by decide⟩
def requestData : CStr := ⟨ascii "a\"b", by decide⟩

/-- A `SendMsg`, as a client writes it that uses the same library. -/
def sendRequest : WireRequest 3 :=
  .write (.sendMsg requestCode requestData) 2
    [(key "msgData", .string requestData), (key "msgQueueCode", .string requestCode)]
    (by decide) ⟨⟨_, rfl, CStr.ofBytes_bytes _⟩, ⟨_, rfl, CStr.ofBytes_bytes _⟩⟩
    ⟨⟨trivial, trivial, trivial⟩, (by decide : InOrder ["msgData", "msgQueueCode"])⟩ (by decide)

/-- Two of them, cut in the length of the second. -/
theorem requests_received_two : ∃ h, Netmgr.handleInputs 1000
      (decodeAnswers scanInteger 3 (List.replicate 2 sendRequest.body))
      [(Netmgr.stream (List.replicate 2 sendRequest.body)).take 140,
        (Netmgr.stream (List.replicate 2 sendRequest.body)).drop 140] Netmgr.Handler.opened =
        some h ∧ h.closed = false ∧
      h.delivered.map (decodeText scanInteger 3) =
        List.replicate 2 (some (.request (.sendMsg requestCode requestData) 2)) := by
  have hlen : (Netmgr.stream (List.replicate 2 sendRequest.body)).length < 1000 := by decide +kernel
  obtain ⟨h, hrun, hopen, -, hdel⟩ := @requests_received scanInteger (fun _ _ => rfl) 3
    (List.replicate 2 sendRequest) _ (hlen.trans (by decide))
    (List.forall_mem_cons.mpr ⟨(List.length_take_le 140 _).trans (by decide : 140 ≤ 16384),
      List.forall_mem_singleton.mpr ((List.drop_sublist _ _).length_le.trans
        (hlen.le.trans (by decide : 1000 ≤ 16384)))⟩)
    (by
      rw [List.flatten_cons, List.flatten_singleton]
      exact List.take_append_drop 140 _) _ hlen
  exact ⟨h, hrun, hopen, hdel⟩

end Domq.Mq
