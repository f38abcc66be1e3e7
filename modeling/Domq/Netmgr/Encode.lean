import Domq.Netmgr.Frame
import Domq.Netmgr.RpcNames

/-!
# Encoding a message into a buffer

`LineCoder::Encode`, `JsonCoder::Encode` and `JsonRpcCoder::Encode` (`netmgr/coder.cpp`), with the
writer of jsoncpp behind them (`json_writer.cpp`).

* A message class is open to derivation, so a message carries what its virtual functions answer: the
  name of its type and the result of `JsonEncode`, called with the null value.
* `none` is a failed assertion, in `JsonEncode` or in jsoncpp, which ends the process.
* `Encoded.written` is the part of the buffer an encoder writes, from its start on, whether the
  buffer is that long or not. Results are converted from `size_t` to `int`.
* Both JSON encoders compare the text with the buffer and then put four more bytes before it;
  `LineCoder` compares nothing.

Result: `encode_within_iff`: the messages whose encoding stays inside the buffer.
-/

namespace Domq.Netmgr

open Domq.Lib

/-! ## `Json::FastWriter` -/

/-- `Json::Value`; a `realValue` comes with what `sprintf` prints of it with `%#.16g`, which has
less than the 32 characters of its buffer. -/
inductive Value
  | null
  | int (n : Int64)
  | uint (n : UInt64)
  | real (value : Double) (printed : Bytes)
  | boolean (b : Bool)
  | string (s : CStr)
  | array (elements : List Value)
  | object (members : List (CStr × Value))

/-- `valueToString` of a `double` that `sprintf` prints so: of the zeros that end a fraction one is
kept. -/
def valueToString (buffer : Bytes) : Bytes :=
  if buffer.getLast? ≠ some 48 then buffer
  else
    let nonzero := buffer.reverse.dropWhile (· = 48)
    match nonzero.dropWhile isDigit with
    | 46 :: _ => buffer.take (nonzero.length + 1)
    | _ => buffer

example : valueToString (ascii "0.2500000000000000") = ascii "0.250" := by decide

/-- The digit of `std::hex << std::uppercase`. -/
def hexUpper (n : Nat) : UInt8 := if n < 10 then UInt8.ofNat (48 + n) else UInt8.ofNat (55 + n)

/-- What the loop of `valueToQuotedString` appends for a character. -/
def quotedByte (c : UInt8) : Bytes :=
  if c = 34 then ascii "\\\""
  else if c = 92 then ascii "\\\\"
  else if c = 8 then ascii "\\b"
  else if c = 12 then ascii "\\f"
  else if c = 10 then ascii "\\n"
  else if c = 13 then ascii "\\r"
  else if c = 9 then ascii "\\t"
  else if c = 47 then ascii "\\/"
  else if 0 < c ∧ c ≤ 0x1f then ascii "\\u00" ++ [hexUpper (c.toNat / 16), hexUpper (c.toNat % 16)]
  else [c]

/-- `valueToQuotedString`; its shortcut for strings without special characters appends the same. -/
def valueToQuotedString (s : CStr) : Bytes := ascii "\"" ++ s.bytes.flatMap quotedByte ++ ascii "\""

mutual

/-- `FastWriter::writeValue`. -/
def Value.write : Value → Bytes
  | .null => ascii "null"
  | .int n => fmtInt n.toInt
  | .uint n => fmtNat n.toNat
  | .real _ printed => valueToString printed
  | .boolean b => if b then ascii "true" else ascii "false"
  | .string s => valueToQuotedString s
  | .array elements => ascii "[" ++ writeElements elements ++ ascii "]"
  | .object members => ascii "\x7b" ++ writeMembers members ++ ascii "\x7d"

/-- The elements of an array, with commas between them. -/
def writeElements : List Value → Bytes
  | [] => []
  | [v] => v.write
  | v :: vs => v.write ++ ascii "," ++ writeElements vs

/-- The members of an object, with commas between them. -/
def writeMembers : List (CStr × Value) → Bytes
  | [] => []
  | [(name, v)] => valueToQuotedString name ++ ascii ":" ++ v.write
  | (name, v) :: ms =>
    valueToQuotedString name ++ ascii ":" ++ v.write ++ ascii "," ++ writeMembers ms

end

/-- `type() == Json::nullValue`. -/
def Value.isNull : Value → Bool
  | .null => true
  | _ => false

/-- Assignment to a member; the map of an object is ordered by `strcmp`. -/
def setMember (name : CStr) (x : Value) : List (CStr × Value) → List (CStr × Value)
  | [] => [(name, x)]
  | (n, v) :: ms =>
    if name = n then (name, x) :: ms
    else if name.bytes < n.bytes then (name, x) :: (n, v) :: ms
    else (n, v) :: setMember name x ms

/-- `obj[name] = x`, which asserts that `obj` is null or an object. -/
def Value.set (obj : Value) (name : String) (x : Value) : Option Value :=
  match obj with
  | .null => some (.object [(CStr.ofBytes (ascii name), x)])
  | .object members => some (.object (setMember (CStr.ofBytes (ascii name)) x members))
  | _ => none

/-- `Value(const std::string&)`: the length is passed to `duplicateStringValue` as an
`unsigned int`, whose greatest value stands for the length up to the first NUL. -/
def Value.ofStdString (s : Bytes) : Value :=
  let length := s.length % 2 ^ 32
  let length := if length = 2 ^ 32 - 1 then (CStr.ofBytes s).bytes.length % 2 ^ 32 else length
  .string (CStr.ofBytes (s.take length))

/-! ## Messages -/

/-- `EndPoint`; the pid, which nothing here reads, is left out. -/
structure EndPoint where
  handleId : UInt64
  addr : Bytes
  msgId : UInt64

/-- The class below `Message` that a message is cast to, with its fields. -/
inductive Kind
  | result (error : Int32) (errMsg : Bytes)
  | line (line : Bytes)
  | service (service key msgContent : Bytes)
  | other

/-- A message: `GetTypeName()`, `serialNo`, `context.peer`, and what `JsonEncode` returns and makes
of a null value. -/
structure NetMessage where
  typeName : Bytes
  serialNo : Int32
  peer : EndPoint
  jsonEncode : Option (Int32 × Value)
  kind : Kind

/-! ## The coders -/

/-- What an encoder returns, and what it writes from the start of the buffer on. -/
structure Encoded where
  ret : Int32
  written : Bytes

/-- `return -1` before anything is written. -/
def Encoded.refused : Encoded := ⟨-1, []⟩

/-- The coders a `ServiceFlagCoder` is made of. -/
inductive Coder
  | line
  | json
  | jsonRpc (names : JsonRpcCoder)

/-- The first half of `JsonCoder::Encode`: the text, or nothing where it returns `-1`. -/
def jsonData (m : NetMessage) : Option (Option Bytes) := do
  let (ret, obj) ← m.jsonEncode
  if ret ≠ 0 then return none
  let obj ← obj.set "_msg_" (.string (CStr.ofBytes m.typeName))
  return some obj.write

/-- `EncodeResult`: its result, and the object. -/
def encodeResult (names : JsonRpcCoder) (m : NetMessage) (error : Int32) (errMsg : Bytes) :
    Option (Int32 × Value) := do
  let (ret, msgObj) ← m.jsonEncode
  if ret ≠ 0 then return (-1, .null)
  let obj ← Value.null.set "id" (.int m.peer.msgId.toInt64)
  let obj ← obj.set "errno" (.int error.toInt64)
  let obj ← if 0 < errMsg.length then obj.set "errmsg" (.ofStdString errMsg) else some obj
  let obj ← if msgObj.isNull then some obj else obj.set "result" msgObj
  let obj ← obj.set "method" (.ofStdString (names.getMethodName m.typeName))
  return (0, obj)

/-- The first half of `JsonRpcCoder::Encode`: only results are encoded. -/
def jsonRpcData (names : JsonRpcCoder) (m : NetMessage) : Option (Option Bytes) :=
  match m.kind with
  | .result error errMsg => do
    let (ret, obj) ← encodeResult names m error errMsg
    if ret ≠ 0 then return none
    return some obj.write
  | _ => some none

/-- The second half of both JSON encoders. -/
def encodeFrame (len : Nat) (data : Bytes) : Encoded :=
  if len < data.length then .refused
  else ⟨Int32.ofNat (headLen + data.length), frame data⟩

/-- The line of a `LineMessage`. -/
def lineData (m : NetMessage) : Option Bytes :=
  match m.kind with
  | .line line => some line
  | _ => none

/-- `LineCoder::Encode` of a line, which does not look at the length of the buffer. -/
def encodeLine (line : Bytes) : Encoded := ⟨Int32.ofNat line.length, line⟩

/-- `Encode(buf, len, message)`. -/
def Coder.encode (c : Coder) (len : Nat) (m : NetMessage) : Option Encoded :=
  match c with
  | .line => some ((lineData m).elim .refused encodeLine)
  | .json => (jsonData m).map fun data => data.elim .refused (encodeFrame len)
  | .jsonRpc names => (jsonRpcData names m).map fun data => data.elim .refused (encodeFrame len)

/-! ## Payloads -/

/-- The line or the text a message is encoded to, where the encoder accepts the message. -/
def Coder.payload (c : Coder) (m : NetMessage) : Option Bytes :=
  match c with
  | .line => lineData m
  | .json => (jsonData m).join
  | .jsonRpc names => (jsonRpcData names m).join

/-- The bytes before the payload. -/
def Coder.header : Coder → Nat
  | .line => 0
  | .json => headLen
  | .jsonRpc _ => headLen

/-- What an encoder does with a payload. -/
def Coder.put (c : Coder) (len : Nat) (p : Bytes) : Encoded :=
  match c with
  | .line => encodeLine p
  | .json => encodeFrame len p
  | .jsonRpc _ => encodeFrame len p

/-- The second half of a JSON encoder, with the two ways in which there is no text. -/
theorem encodeFrame_cases (d : Option (Option Bytes)) (len : Nat) :
    (d.join = none ∧ ∀ out ∈ d.map fun x => x.elim .refused (encodeFrame len), out = .refused) ∨
      ∃ p, d.join = some p ∧
        (d.map fun x => x.elim .refused (encodeFrame len)) = some (encodeFrame len p) := by
  rcases d with - | - | p
  · exact Or.inl ⟨rfl, fun out h => absurd h (by simp)⟩
  · refine Or.inl ⟨rfl, fun out h => ?_⟩
    simpa using h.symm
  · exact Or.inr ⟨p, rfl, rfl⟩

/-- **What an encoder does.** Without a payload it ends the process or refuses the message; with one
it puts the payload into the buffer. -/
theorem encode_cases (c : Coder) (len : Nat) (m : NetMessage) :
    (c.payload m = none ∧ ∀ out ∈ c.encode len m, out = .refused) ∨
      ∃ p, c.payload m = some p ∧ c.encode len m = some (c.put len p) := by
  rcases c with - | - | names
  · rcases hl : lineData m with - | line
    · refine Or.inl ⟨hl, fun out h => ?_⟩
      simpa [Coder.encode, hl] using h.symm
    · refine Or.inr ⟨line, hl, ?_⟩
      rw [Coder.encode, hl]
      rfl
  · exact encodeFrame_cases (jsonData m) len
  · exact encodeFrame_cases (jsonRpcData names m) len

theorem encode_of_payload {c : Coder} {len : Nat} {m : NetMessage} {p : Bytes}
    (hp : c.payload m = some p) : c.encode len m = some (c.put len p) := by
  rcases encode_cases c len m with ⟨hnone, -⟩ | ⟨p', hp', henc⟩
  · rw [hp] at hnone
    cases hnone
  · obtain rfl : p' = p := Option.some.inj (hp'.symm.trans hp)
    exact henc

/-- `EncodeResult` of a result whose `JsonEncode` succeeds builds an object. -/
theorem encodeResult_of_jsonEncode (names : JsonRpcCoder) {m : NetMessage} {v : Value}
    (h : m.jsonEncode = some (0, v)) (error : Int32) (errMsg : Bytes) :
    ∃ obj, encodeResult names m error errMsg = some (0, obj) := by
  unfold encodeResult
  rw [h]
  by_cases he : 0 < errMsg.length
  · rcases hv : v.isNull with - | -
    · simp [he, hv, Value.set]
    · simp [he, hv, Value.set]
  · rcases hv : v.isNull with - | -
    · simp [he, hv, Value.set]
    · simp [he, hv, Value.set]

/-! ## The buffer -/

/-- What is written and a result that is no error are at most the length of the buffer, and the
result is `-1` for a payload that does not fit behind its header. -/
structure Within (c : Coder) (len : Nat) (m : NetMessage) (out : Encoded) : Prop where
  written_le : out.written.length ≤ len
  ret_le : 0 ≤ out.ret.toInt → out.ret.toInt ≤ len
  unfit : ∀ p, c.payload m = some p → len < p.length + c.header → out.ret = -1

/-- A payload that fits behind its header, or is longer than the buffer and compared with it. -/
def Fine (c : Coder) (len : Nat) (m : NetMessage) : Prop :=
  ∀ p, c.payload m = some p → p.length + c.header ≤ len ∨ c ≠ .line ∧ len < p.length

/-- The message fits, and its size is no negative `int`. -/
def Accepted (c : Coder) (len : Nat) (m : NetMessage) : Prop :=
  ∃ p, c.payload m = some p ∧ p.length + c.header ≤ len ∧
    0 ≤ (Int32.ofNat (p.length + c.header)).toInt

theorem encodeFrame_of_le {len : Nat} {p : Bytes} (h : p.length ≤ len) :
    (encodeFrame len p).ret = Int32.ofNat (p.length + headLen) ∧
      (encodeFrame len p).written.length = p.length + headLen := by
  unfold encodeFrame
  rw [if_neg (Nat.not_lt.mpr h)]
  exact ⟨congrArg Int32.ofNat (Nat.add_comm _ _), length_frame p⟩

/-- A payload that is not refused is put behind its header, whether it fits or not. -/
theorem put_of_le {c : Coder} {len : Nat} {p : Bytes} (h : c = .line ∨ p.length ≤ len) :
    (c.put len p).ret = Int32.ofNat (p.length + c.header) ∧
      (c.put len p).written.length = p.length + c.header := by
  rcases c with - | - | names
  · exact ⟨rfl, rfl⟩
  · exact encodeFrame_of_le (h.resolve_left (by simp))
  · exact encodeFrame_of_le (h.resolve_left (by simp))

/-- A text longer than the buffer is refused. -/
theorem put_of_long {c : Coder} {len : Nat} {p : Bytes} (hc : c ≠ .line) (h : len < p.length) :
    c.put len p = .refused := by
  rcases c with - | - | names
  · exact absurd rfl hc
  · exact if_pos h
  · exact if_pos h

theorem within_refused (c : Coder) (len : Nat) (m : NetMessage) : Within c len m .refused where
  written_le := Nat.zero_le len
  ret_le h := absurd h (by decide)
  unfit _ _ _ := rfl

section

variable {c : Coder} {len : Nat} {m : NetMessage} {out : Encoded}

/-- **What an encoder writes decides.** If it stays inside the buffer, so does the result, and a
payload that does not fit was refused. -/
theorem within_of_written (h : c.encode len m = some out) (hle : out.written.length ≤ len) :
    Within c len m out := by
  rcases encode_cases c len m with ⟨-, href⟩ | ⟨p, hp, henc⟩
  · rw [href out h]
    exact within_refused c len m
  · obtain rfl : c.put len p = out := Option.some.inj (henc.symm.trans h)
    by_cases hput : c = .line ∨ p.length ≤ len
    · obtain ⟨hret, hwritten⟩ := put_of_le hput
      rw [hwritten] at hle
      refine ⟨hwritten.trans_le hle, fun h0 => ?_, fun p' hp' hlt => ?_⟩
      · rw [hret] at h0 ⊢
        exact (toInt_ofNat_le h0).trans (by exact_mod_cast hle)
      · obtain rfl : p = p' := Option.some.inj (hp.symm.trans hp')
        exact absurd hle (Nat.not_le.mpr hlt)
    · rw [not_or, not_le] at hput
      rw [put_of_long hput.1 hput.2]
      exact within_refused c len m

theorem fine_iff_written :
    Fine c len m ↔ ∀ out, c.encode len m = some out → out.written.length ≤ len := by
  rcases encode_cases c len m with ⟨hnone, href⟩ | ⟨p, hp, henc⟩
  · constructor
    · intro _ out hout
      rw [href out hout]
      exact Nat.zero_le len
    · intro _ p hp
      rw [hnone] at hp
      cases hp
  · constructor
    · intro hfine out hout
      obtain rfl : c.put len p = out := Option.some.inj (henc.symm.trans hout)
      rcases hfine p hp with hfits | ⟨hc, hlong⟩
      · rw [(put_of_le (Or.inr (le_trans (Nat.le_add_right _ _) hfits))).2]
        exact hfits
      · rw [put_of_long hc hlong]
        exact Nat.zero_le len
    · intro h p' hp'
      obtain rfl : p = p' := Option.some.inj (hp.symm.trans hp')
      have hle := h _ henc
      by_contra hbad
      rw [not_or, not_and_or, not_not, not_lt, not_le] at hbad
      rw [(put_of_le hbad.2).2] at hle
      exact absurd hle (Nat.not_le.mpr hbad.1)

theorem fine_iff_of_encode (h : c.encode len m = some out) :
    Fine c len m ↔ out.written.length ≤ len := by
  rw [fine_iff_written, h]
  simp only [Option.some.injEq, forall_eq']

/-- A message that is accepted is encoded. -/
theorem Accepted.encode (h : Accepted c len m) : ∃ out, c.encode len m = some out := by
  obtain ⟨p, hp, -⟩ := h
  exact ⟨_, encode_of_payload hp⟩

/-- A message whose payload is fine gets a result that is no error exactly if it is accepted. -/
theorem accepted_iff (hfine : Fine c len m) (h : c.encode len m = some out) :
    Accepted c len m ↔ 0 ≤ out.ret.toInt := by
  rcases encode_cases c len m with ⟨hnone, href⟩ | ⟨p, hp, henc⟩
  · rw [href out h]
    refine iff_of_false ?_ (by decide)
    rintro ⟨p, hp, -⟩
    rw [hnone] at hp
    cases hp
  · obtain rfl : c.put len p = out := Option.some.inj (henc.symm.trans h)
    have hacc : Accepted c len m ↔ p.length + c.header ≤ len ∧
        0 ≤ (Int32.ofNat (p.length + c.header)).toInt := by
      unfold Accepted
      rw [hp]
      simp only [Option.some.injEq, exists_eq_left']
    rw [hacc]
    rcases hfine p hp with hfits | ⟨hc, hlong⟩
    · rw [(put_of_le (Or.inr (le_trans (Nat.le_add_right _ _) hfits))).1]
      exact and_iff_right hfits
    · rw [put_of_long hc hlong]
      refine iff_of_false (fun hle => ?_) (by decide)
      omega

end

/-- **One encoder and the buffer.** What an encoder writes and returns stays inside the buffer, and
a message that does not fit is refused, exactly when its payload is fine. -/
theorem encode_within_iff (c : Coder) (len : Nat) (m : NetMessage) :
    (∀ out, c.encode len m = some out → Within c len m out) ↔ Fine c len m := by
  rw [fine_iff_written]
  refine forall_congr' fun out => imp_congr_right fun h => ?_
  exact ⟨fun hw => hw.written_le, within_of_written h⟩

end Domq.Netmgr
