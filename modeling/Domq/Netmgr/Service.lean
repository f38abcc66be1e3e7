import Domq.Netmgr.Encode

/-!
# Requests in a service wrapper

`ServiceFlagCoder` (`netmgr/coder.cpp`): a request may come inside a `ServiceMessage`, which names a
service and a key. `Decode` registers each request under a new number, puts the number into its
`serialNo`, and `Encode` of the response looks the number up to wrap the response as the request
was.

* `Role` says which of the two coders a message is handed to. The outer and the inner `Decode` are
  any functions; a message they return has any fields.
* `Encode` uses one buffer twice: the internal coder's bytes are the content of the wrapper, and the
  outer coder writes over them.
* The counter is an `int` that starts anywhere and wraps. A number that is taken is not registered,
  and the request gets `-1` for it.

Result: `encoders_within_iff`: when the four encoders stay inside the buffer.
-/

namespace Domq.Netmgr

open Domq.Lib Function

/-! ## `RequestManager` -/

structure ServiceMsgInfo where
  service : Bytes
  key : Bytes
  serialNo : Int32
  deriving DecidableEq

structure RequestManager where
  reqCounter : Int32
  requests : Int32 → Option ServiceMsgInfo

namespace RequestManager

/-- `RegisterRequest`. -/
def registerRequest (info : ServiceMsgInfo) (rm : RequestManager) : Int32 × RequestManager :=
  let reqCounter := rm.reqCounter + 1
  if rm.requests reqCounter ≠ none then (-1, { rm with reqCounter })
  else (reqCounter, ⟨reqCounter, update rm.requests reqCounter (some info)⟩)

/-- `UnregisterRequest`. -/
def unregisterRequest (reqID : Int32) (rm : RequestManager) : RequestManager :=
  { rm with requests := update rm.requests reqID none }

end RequestManager

/-! ## `ServiceFlagCoder` -/

structure ServiceFlagCoder where
  coder : Coder
  internalCoder : Coder
  requestManager : RequestManager

/-- The two coders of a `ServiceFlagCoder`. -/
inductive Role
  | coder | internalCoder
  deriving DecidableEq

/-- What `Encode` returns and writes, and the messages it hands to the coders, in their order. -/
structure Sent extends Encoded where
  handed : List (Role × NetMessage)

/-- The `ServiceMessage` around a response. -/
def serviceResponse (peer : EndPoint) (info : ServiceMsgInfo) (msgContent : Bytes) :
    NetMessage where
  typeName := ascii "netmgr::ServiceMessage"
  serialNo := info.serialNo
  peer := peer
  jsonEncode := some (0, .null)
  kind := .service info.service info.key msgContent

/-- The text of a wrapper, from the coder that encodes it. -/
def Coder.wrapperText : Coder → Option Bytes
  | .json => some (ascii "\x7b\"_msg_\":\"netmgr::ServiceMessage\"\x7d")
  | _ => none

namespace ServiceFlagCoder

def coderOf (s : ServiceFlagCoder) : Role → Coder
  | .coder => s.coder
  | .internalCoder => s.internalCoder

/-- `Decode`: the message, and the coder after it. -/
def decode (s : ServiceFlagCoder) (outer inner : Bytes → Option NetMessage) (buf : Bytes) :
    Option NetMessage × ServiceFlagCoder :=
  match outer buf with
  | none => (none, s)
  | some msg =>
    match msg.kind with
    | .service service key msgContent =>
      match inner msgContent with
      | none => (none, s)
      | some req =>
        let (reqNo, rm) := s.requestManager.registerRequest ⟨service, key, msg.serialNo⟩
        (some { req with peer := msg.peer, serialNo := reqNo }, { s with requestManager := rm })
    | _ =>
      let (reqNo, rm) := s.requestManager.registerRequest ⟨[], [], msg.serialNo⟩
      (some { msg with serialNo := reqNo }, { s with requestManager := rm })

/-- The lines of `Encode` for a message that is not wrapped. -/
def encodeDirect (s : ServiceFlagCoder) (len : Nat) (m : NetMessage) : Option Sent :=
  (s.coder.encode len m).map fun out => ⟨out, [(.coder, m)]⟩

/-- The lines of `Encode` for a message that is wrapped. -/
def encodeWrapped (s : ServiceFlagCoder) (info : ServiceMsgInfo) (len : Nat) (m : NetMessage) :
    Option Sent := do
  let out ← s.internalCoder.encode len m
  if out.ret.toInt < 0 then return ⟨⟨-1, out.written⟩, [(.internalCoder, m)]⟩
  let res := serviceResponse m.peer info (out.written.take out.ret.toNatClampNeg)
  let out' ← s.coder.encode len res
  return ⟨⟨out'.ret, out'.written ++ out.written.drop out'.written.length⟩,
    [(.internalCoder, m), (.coder, res)]⟩

/-- `Encode`, and the coder after it: the entry that was found is removed on every way out. -/
def encode (s : ServiceFlagCoder) (len : Nat) (m : NetMessage) : Option (Sent × ServiceFlagCoder) :=
  match s.requestManager.requests m.serialNo with
  | none => (s.encodeDirect len m).map fun out => (out, s)
  | some info =>
    let sent := if info.service = [] ∧ info.key = [] then s.encodeDirect len m
      else s.encodeWrapped info len m
    sent.map fun out =>
      (out, { s with requestManager := s.requestManager.unregisterRequest m.serialNo })

/-! ## The buffer -/

/-- `Domq.Netmgr.Within` for `ServiceFlagCoder::Encode`: none of the messages handed to a coder is
one that does not fit, unless `-1` is returned. -/
structure Within (s : ServiceFlagCoder) (len : Nat) (out : Sent) : Prop where
  written_le : out.written.length ≤ len
  ret_le : 0 ≤ out.ret.toInt → out.ret.toInt ≤ len
  unfit : ∀ h ∈ out.handed, ∀ p, (s.coderOf h.1).payload h.2 = some p →
    len < p.length + (s.coderOf h.1).header → out.ret = -1

/-- `Domq.Netmgr.Fine` for `ServiceFlagCoder::Encode`. The wrapper has a text of 34 bytes, which
the outer coder encodes if it is a `JsonCoder`. -/
def Fine (s : ServiceFlagCoder) (len : Nat) (m : NetMessage) : Prop :=
  match s.requestManager.requests m.serialNo with
  | none => Netmgr.Fine s.coder len m
  | some info =>
    if info.service = [] ∧ info.key = [] then Netmgr.Fine s.coder len m
    else Netmgr.Fine s.internalCoder len m ∧
      (Accepted s.internalCoder len m → s.coder = .json → len < 34 ∨ 38 ≤ len)

section

variable {s : ServiceFlagCoder} {len : Nat} {m : NetMessage} {info : ServiceMsgInfo}

theorem payload_serviceResponse (c : Coder) (peer : EndPoint) (info : ServiceMsgInfo)
    (content : Bytes) : c.payload (serviceResponse peer info content) = c.wrapperText := by
  rcases c with - | - | names
  · rfl
  · rfl
  · rfl

/-- The outer coder returns for a wrapper. -/
theorem encode_serviceResponse (c : Coder) (len : Nat) (peer : EndPoint) (info : ServiceMsgInfo)
    (content : Bytes) : ∃ out, c.encode len (serviceResponse peer info content) = some out := by
  rcases c with - | - | names
  · exact ⟨_, rfl⟩
  · exact ⟨_, rfl⟩
  · exact ⟨_, rfl⟩

theorem fine_serviceResponse_iff (c : Coder) (len : Nat) (peer : EndPoint) (info : ServiceMsgInfo)
    (content : Bytes) : Netmgr.Fine c len (serviceResponse peer info content) ↔
      (c = .json → len < 34 ∨ 38 ≤ len) := by
  unfold Netmgr.Fine
  rw [payload_serviceResponse]
  rcases c with - | - | names
  · simp [Coder.wrapperText]
  · have h34 : (ascii "\x7b\"_msg_\":\"netmgr::ServiceMessage\"\x7d").length = 34 := by decide
    simp only [Coder.wrapperText, Option.some.injEq, forall_eq', h34, Coder.header, headLen, ne_eq,
      reduceCtorEq, not_false_eq_true, true_and, forall_const]
    omega
  · simp [Coder.wrapperText]

theorem encode_direct (h : s.requestManager.requests m.serialNo = none) :
    s.encode len m = (s.encodeDirect len m).map fun out => (out, s) := by
  rw [encode, h]

theorem encode_plain (h : s.requestManager.requests m.serialNo = some info)
    (hempty : info.service = [] ∧ info.key = []) :
    s.encode len m = (s.encodeDirect len m).map fun out =>
      (out, { s with requestManager := s.requestManager.unregisterRequest m.serialNo }) := by
  rw [encode, h]
  simp only [if_pos hempty]

theorem encode_wrapped (h : s.requestManager.requests m.serialNo = some info)
    (hne : ¬ (info.service = [] ∧ info.key = [])) :
    s.encode len m = (s.encodeWrapped info len m).map fun out =>
      (out, { s with requestManager := s.requestManager.unregisterRequest m.serialNo }) := by
  rw [encode, h]
  simp only [if_neg hne]

/-- **A response that is wrapped.** The internal coder ends the process or refuses the response, or
its bytes become the content of the wrapper. -/
theorem encodeWrapped_cases (s : ServiceFlagCoder) (info : ServiceMsgInfo) (len : Nat)
    (m : NetMessage) :
    (s.internalCoder.encode len m = none ∧ s.encodeWrapped info len m = none) ∨
    (∃ out, s.internalCoder.encode len m = some out ∧ out.ret.toInt < 0 ∧
      s.encodeWrapped info len m = some ⟨⟨-1, out.written⟩, [(.internalCoder, m)]⟩) ∨
    ∃ out res out', s.internalCoder.encode len m = some out ∧ 0 ≤ out.ret.toInt ∧
      res = serviceResponse m.peer info (out.written.take out.ret.toNatClampNeg) ∧
      s.coder.encode len res = some out' ∧
      s.encodeWrapped info len m =
        some ⟨⟨out'.ret, out'.written ++ out.written.drop out'.written.length⟩,
          [(.internalCoder, m), (.coder, res)]⟩ := by
  rcases hout : s.internalCoder.encode len m with - | out
  · exact Or.inl ⟨rfl, by simp [encodeWrapped, hout]⟩
  · by_cases hret : out.ret.toInt < 0
    · exact Or.inr (Or.inl ⟨out, rfl, hret, by simp [encodeWrapped, hout, hret]⟩)
    · obtain ⟨out', hout'⟩ := encode_serviceResponse s.coder len m.peer info
        (out.written.take out.ret.toNatClampNeg)
      exact Or.inr (Or.inr ⟨out, _, out', rfl, not_lt.mp hret, rfl, hout',
        by simp [encodeWrapped, hout, hret, hout']⟩)

theorem within_direct_iff : (∀ out, s.encodeDirect len m = some out → s.Within len out) ↔
    Netmgr.Fine s.coder len m := by
  rw [← encode_within_iff]
  constructor
  · intro h out hout
    have hw : s.Within len ⟨out, [(.coder, m)]⟩ := h _ (by rw [encodeDirect, hout]; rfl)
    exact ⟨hw.written_le, hw.ret_le, hw.unfit _ (List.mem_singleton.mpr rfl)⟩
  · intro h sent hsent
    obtain ⟨out, hout, rfl⟩ := Option.map_eq_some_iff.mp hsent
    have hw := h out hout
    refine ⟨hw.written_le, hw.ret_le, fun q hq => ?_⟩
    rw [List.mem_singleton.mp hq]
    exact hw.unfit

theorem length_overlay (a b : Bytes) : (a ++ b.drop a.length).length = max a.length b.length := by
  rw [List.length_append, List.length_drop]
  omega

/-- The internal coder refused the response: only what it wrote counts. -/
theorem within_refused_iff {written : Bytes} {handed : List (Role × NetMessage)} :
    s.Within len ⟨⟨-1, written⟩, handed⟩ ↔ written.length ≤ len := by
  constructor
  · exact fun h => h.written_le
  · intro h
    refine ⟨h, fun h0 => ?_, fun _ _ _ _ _ => rfl⟩
    exact absurd (show 0 ≤ (-1 : Int32).toInt from h0) (by decide)

/-- The response was wrapped: what both coders wrote counts. -/
theorem within_overlay_iff {res : NetMessage} {out out' : Encoded}
    (hin : s.internalCoder.encode len m = some out) (hpos : 0 ≤ out.ret.toInt)
    (hout' : s.coder.encode len res = some out') :
    s.Within len ⟨⟨out'.ret, out'.written ++ out.written.drop out'.written.length⟩,
        [(.internalCoder, m), (.coder, res)]⟩ ↔
      out'.written.length ≤ len ∧ out.written.length ≤ len := by
  constructor
  · intro h
    have hle := h.written_le
    simp only [length_overlay, max_le_iff] at hle
    exact hle
  · rintro ⟨hle', hle⟩
    have hw := within_of_written hin hle
    have hw' := within_of_written hout' hle'
    refine ⟨?_, hw'.ret_le, ?_⟩
    · simp only [length_overlay]
      exact max_le hle' hle
    · -- the internal coder returned a size, so that the response was one that fits
      intro q hq p hp hlt
      rcases List.mem_cons.mp hq with rfl | hq
      · have hret := hw.unfit p hp hlt
        rw [hret] at hpos
        exact absurd hpos (by decide)
      · obtain rfl := List.mem_singleton.mp hq
        exact hw'.unfit p hp hlt

theorem within_wrapped_iff (info : ServiceMsgInfo) :
    (∀ out, s.encodeWrapped info len m = some out → s.Within len out) ↔
      Netmgr.Fine s.internalCoder len m ∧
        (Accepted s.internalCoder len m → s.coder = .json → len < 34 ∨ 38 ≤ len) := by
  rcases encodeWrapped_cases s info len m with ⟨hin, hnone⟩ | ⟨out, hin, hneg, hsent⟩ |
    ⟨out, res, out', hin, hpos, hres, hout', hsent⟩
  · rw [hnone, fine_iff_written, hin]
    refine iff_of_true nofun ⟨nofun, fun hacc => ?_⟩
    obtain ⟨out, hout⟩ := hacc.encode
    rw [hin] at hout
    cases hout
  · rw [hsent, fine_iff_of_encode hin]
    simp only [Option.some.injEq, forall_eq', within_refused_iff]
    refine (and_iff_left_of_imp fun hle hacc => ?_).symm
    have hfine := (fine_iff_of_encode hin).mpr hle
    exact absurd ((accepted_iff hfine hin).mp hacc) (not_le.mpr hneg)
  · have hwrapper : (s.coder = .json → len < 34 ∨ 38 ≤ len) ↔ out'.written.length ≤ len := by
      rw [← fine_iff_of_encode hout', hres, fine_serviceResponse_iff]
    rw [hsent, hwrapper]
    simp only [Option.some.injEq, forall_eq', within_overlay_iff hin hpos hout']
    constructor
    · rintro ⟨hle', hle⟩
      exact ⟨(fine_iff_of_encode hin).mpr hle, fun _ => hle'⟩
    · rintro ⟨hfine, hacc⟩
      exact ⟨hacc ((accepted_iff hfine hin).mpr hpos), (fine_iff_of_encode hin).mp hfine⟩

theorem within_iff (s : ServiceFlagCoder) (len : Nat) (m : NetMessage) :
    (∀ out s', s.encode len m = some (out, s') → s.Within len out) ↔ s.Fine len m := by
  have hmap : ∀ {o : Option Sent} {s' : ServiceFlagCoder},
      (∀ out s'', (o.map fun out => (out, s')) = some (out, s'') → s.Within len out) ↔
        ∀ out, o = some out → s.Within len out := by
    intro o s'
    constructor
    · intro h out ho
      exact h out s' (by rw [ho]; rfl)
    · intro h out s'' ho
      obtain ⟨out', ho', heq⟩ := Option.map_eq_some_iff.mp ho
      obtain rfl := (Prod.mk.inj heq).1
      exact h out' ho'
  rcases hreq : s.requestManager.requests m.serialNo with - | info
  · rw [encode_direct hreq, hmap, within_direct_iff, Fine, hreq]
  · by_cases hempty : info.service = [] ∧ info.key = []
    · rw [encode_plain hreq hempty, hmap, within_direct_iff, Fine, hreq]
      simp only [if_pos hempty]
    · rw [encode_wrapped hreq hempty, hmap, within_wrapped_iff, Fine, hreq]
      simp only [if_neg hempty]

end

end ServiceFlagCoder

/-- **Encoders and the buffer.** What an encoder writes and a result that is no error are at most
the length of the buffer, and a message that does not fit gets `-1`, exactly when the payload is
fine; the same holds of a `ServiceFlagCoder` over two of them. -/
theorem encoders_within_iff (c : Coder) (s : ServiceFlagCoder) (len : Nat) (m : NetMessage) :
    ((∀ out, c.encode len m = some out → Within c len m out) ↔ Fine c len m) ∧
      ((∀ out s', s.encode len m = some (out, s') → s.Within len out) ↔ s.Fine len m) :=
  ⟨encode_within_iff c len m, s.within_iff len m⟩

/-- A result whose JSON text is as long as the buffer is written with its header past the end. -/
theorem encoders_overrun :
    ¬ ((∀ (c : Coder) (len : Nat) (m : NetMessage) (out : Encoded),
        c.encode len m = some out → Within c len m out) ∧
      ∀ (s : ServiceFlagCoder) (len : Nat) (m : NetMessage) (out : Sent) (s' : ServiceFlagCoder),
        s.encode len m = some (out, s') → s.Within len out) := by
  rintro ⟨h, -⟩
  have hw := h (.jsonRpc .new) 37 ⟨ascii "SendMsgResult", 1, ⟨1, ascii "127.0.0.1:4000", 7⟩,
    some (0, .null), .result 0 []⟩ _ rfl
  exact absurd hw.written_le (by decide)

end Domq.Netmgr
