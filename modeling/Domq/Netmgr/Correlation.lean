import Domq.Lib.Machine
import Domq.Netmgr.Service
import Mathlib.Data.List.Perm.Basic

/-!
# Responses and their requests

Runs of a `ServiceFlagCoder`: calls of `Decode` and of `Encode` in any order, an `Encode` being that
of the response to a request `Decode` returned before, with the `serialNo` it put into the request.
A request is answered once or never.

* `Arrived` records what a request came with, and whether its number was free.
* `Answer` records one `Encode`: what it handed to which coder, and the table before and after it.

`Encode` does not restore the `serialNo` of a request that came without a wrapper: the response is
encoded with the number `Decode` gave it.

Results:
* `answer_right_iff`: the response to a request is encoded as the request demands exactly if the
  request is `Answerable`.
* `correlated_of_answerable`: in every run whose responses are all to such requests, every response
  is, and the entry of a registered request is in the table until its response is encoded.
-/

namespace Domq.Netmgr

open Domq.Lib Machine Function

/-! ## Runs -/

/-- Whether a message is a `ServiceMessage`. -/
def NetMessage.isService (m : NetMessage) : Bool :=
  match m.kind with
  | .service _ _ _ => true
  | _ => false

/-- The service, the key and the `serialNo` a message came with. -/
def NetMessage.asked (m : NetMessage) : ServiceMsgInfo :=
  match m.kind with
  | .service service key _ => ⟨service, key, m.serialNo⟩
  | _ => ⟨[], [], m.serialNo⟩

theorem asked_of_plain {m : NetMessage} (h : m.isService = false) :
    m.asked.service = [] ∧ m.asked.key = [] := by
  unfold NetMessage.isService at h
  unfold NetMessage.asked
  split
  · rename_i hk
    rw [hk] at h
    cases h
  · exact ⟨rfl, rfl⟩

/-- A request that `Decode` returned: the number in its `serialNo`, what it came with, whether it
came in a wrapper, and whether the number was registered. -/
structure Arrived where
  id : Int32
  info : ServiceMsgInfo
  wrapped : Bool
  registered : Bool
  plain : wrapped = false → info.service = [] ∧ info.key = []

/-- One `Encode` of a response. -/
structure Answer where
  request : Arrived
  coders : ServiceFlagCoder
  len : Nat
  response : NetMessage
  sent : Sent
  after : Int32 → Option ServiceMsgInfo

/-- A coder, the requests without a response and the calls of `Encode` so far. -/
structure ServiceState where
  coder : ServiceFlagCoder
  outstanding : List Arrived
  log : List Answer

/-- The calls; `encode k` is that of the response to a request without one. -/
inductive ServiceCall
  | decode (outer inner : Bytes → Option NetMessage) (buf : Bytes)
  | encode (k : Nat) (len : Nat) (response : NetMessage)

/-- The request that a message of the outer coder leads to under a number. -/
def ServiceFlagCoder.arrived (s : ServiceFlagCoder) (msg : NetMessage) (id : Int32) : Arrived :=
  ⟨id, msg.asked, msg.isService,
    (s.requestManager.requests (s.requestManager.reqCounter + 1)).isNone, asked_of_plain⟩

namespace ServiceState

/-- One call. -/
def step (s : ServiceState) : ServiceCall → Option ServiceState
  | .decode outer inner buf =>
    match outer buf, s.coder.decode outer inner buf with
    | some msg, (some req, coder) =>
      some { s with
        coder := coder
        outstanding := s.outstanding ++ [s.coder.arrived msg req.serialNo] }
    | _, (_, coder) => some { s with coder := coder }
  | .encode k len response =>
    match s.outstanding[k]? with
    | none => none
    | some r =>
      if response.serialNo = r.id then
        (s.coder.encode len response).map fun e =>
          ⟨e.2, s.outstanding.eraseIdx k,
            s.log ++ [⟨r, s.coder, len, response, e.1, e.2.requestManager.requests⟩]⟩
      else none

/-- Nothing was called yet; the counter has any value. -/
structure Started (s : ServiceState) : Prop where
  requests : ∀ id, s.coder.requestManager.requests id = none
  outstanding : s.outstanding = []
  log : s.log = []

end ServiceState

/-! ## The right response -/

/-- The response under the `serialNo` its request came with. -/
def Answer.restored (a : Answer) : NetMessage :=
  { a.response with serialNo := a.request.info.serialNo }

/-- **The right response.** It was encoded for a request with an entry, which was there and was
removed, it alone. For a request in a wrapper `Encode` returns and writes what the outer coder makes
of a wrapper of its own around what the internal coder made of the response, unless the internal
coder refused the response; for any other, what the outer coder makes of the response under the
`serialNo` of the request. -/
structure Answer.Right (a : Answer) : Prop where
  registered : a.request.registered = true
  entry : a.coders.requestManager.requests a.request.id = some a.request.info
  removed : a.after = update a.coders.requestManager.requests a.request.id none
  wrapped : a.request.wrapped = true → ∃ out,
    a.coders.internalCoder.encode a.len a.response = some out ∧
    ((out.ret.toInt < 0 ∧ a.sent = ⟨⟨-1, out.written⟩, [(.internalCoder, a.response)]⟩) ∨
      0 ≤ out.ret.toInt ∧ ∃ res out', res = serviceResponse a.response.peer a.request.info
          (out.written.take out.ret.toNatClampNeg) ∧
        a.coders.coder.encode a.len res = some out' ∧
        a.sent = ⟨⟨out'.ret, out'.written ++ out.written.drop out'.written.length⟩,
          [(.internalCoder, a.response), (.coder, res)]⟩)
  plain : a.request.wrapped = false → ∃ out,
    a.coders.coder.encode a.len a.restored = some out ∧ a.sent = ⟨out, [(.coder, a.restored)]⟩

/-- Every response so far was right, and registered requests without one have their entries. -/
structure ServiceState.Correlated (s : ServiceState) : Prop where
  answers : ∀ a ∈ s.log, a.Right
  entries : ∀ r ∈ s.outstanding, r.registered = true →
    s.coder.requestManager.requests r.id = some r.info

/-- The request was registered; its wrapper names a service or a key, or it came without one and
had the number it was given for a `serialNo`. -/
def Arrived.Answerable (r : Arrived) : Prop :=
  r.registered = true ∧ (r.wrapped = true → r.info.service ≠ [] ∨ r.info.key ≠ []) ∧
    (r.wrapped = false → r.info.serialNo = r.id)

instance (r : Arrived) : Decidable r.Answerable :=
  inferInstanceAs (Decidable (_ ∧ (_ → _) ∧ (_ → _)))

/-- Only answerable requests get a response. -/
def ServiceState.answerable (s : ServiceState) : ServiceCall → Prop
  | .encode k _ _ => ∀ r, s.outstanding[k]? = some r → r.Answerable
  | .decode _ _ _ => True

/-! ## One `Decode` -/

theorem registerRequest_cases (info : ServiceMsgInfo) (rm : RequestManager) :
    (rm.requests (rm.reqCounter + 1) = none ∧ rm.registerRequest info = (rm.reqCounter + 1,
      ⟨rm.reqCounter + 1, update rm.requests (rm.reqCounter + 1) (some info)⟩)) ∨
    (rm.requests (rm.reqCounter + 1) ≠ none ∧
      rm.registerRequest info = (-1, { rm with reqCounter := rm.reqCounter + 1 })) := by
  by_cases h : rm.requests (rm.reqCounter + 1) = none
  · refine Or.inl ⟨h, ?_⟩
    unfold RequestManager.registerRequest
    exact if_neg (not_not.mpr h)
  · exact Or.inr ⟨h, if_pos h⟩

/-- **What `Decode` does.** It changes nothing, or registers what the outer message came with and
returns a message with the number. -/
theorem decode_cases (s : ServiceFlagCoder) (outer inner : Bytes → Option NetMessage)
    (buf : Bytes) :
    s.decode outer inner buf = (none, s) ∨ ∃ msg req, outer buf = some msg ∧
      s.decode outer inner buf = (some req,
        { s with requestManager := (s.requestManager.registerRequest msg.asked).2 }) ∧
      req.serialNo = (s.requestManager.registerRequest msg.asked).1 := by
  unfold ServiceFlagCoder.decode
  rcases outer buf with - | msg
  · exact Or.inl rfl
  · dsimp only
    split
    · rename_i service key msgContent hk
      have hasked : msg.asked = ⟨service, key, msg.serialNo⟩ := by rw [NetMessage.asked, hk]
      rcases inner msgContent with - | req
      · exact Or.inl rfl
      · exact Or.inr ⟨msg, _, rfl, by rw [hasked], by rw [hasked]⟩
    · rename_i hplain
      have hasked : msg.asked = ⟨[], [], msg.serialNo⟩ := by
        unfold NetMessage.asked
        split
        · rename_i service key msgContent hk
          exact (hplain service key msgContent hk).elim
        · rfl
      exact Or.inr ⟨msg, _, rfl, by rw [hasked], by rw [hasked]⟩

namespace ServiceState

variable {s s' : ServiceState}

/-- **A `Decode` in a run.** Nothing changes, or a request has arrived: with a number that was free,
under which it is registered, or with `-1`. -/
theorem step_decode_cases {outer inner : Bytes → Option NetMessage} {buf : Bytes}
    (h : s.step (.decode outer inner buf) = some s') :
    s' = s ∨ ∃ r : Arrived,
      s'.outstanding = s.outstanding ++ [r] ∧ s'.log = s.log ∧
      ((r.registered = true ∧ s.coder.requestManager.requests r.id = none ∧
          s'.coder.requestManager.requests =
            update s.coder.requestManager.requests r.id (some r.info)) ∨
        (r.registered = false ∧
          s'.coder.requestManager.requests = s.coder.requestManager.requests)) := by
  rw [step] at h
  rcases decode_cases s.coder outer inner buf with hdec | ⟨msg, req, hmsg, hdec, hserial⟩
  · rw [hdec] at h
    rcases hbuf : outer buf with - | msg
    · rw [hbuf] at h
      exact Or.inl (Option.some.inj h).symm
    · rw [hbuf] at h
      exact Or.inl (Option.some.inj h).symm
  · rw [hmsg, hdec] at h
    obtain rfl := Option.some.inj h
    refine Or.inr ⟨_, rfl, rfl, ?_⟩
    rcases registerRequest_cases msg.asked s.coder.requestManager with
      ⟨hfree, hreg⟩ | ⟨htaken, hreg⟩
    · rw [hreg] at hserial
      have hid : req.serialNo = s.coder.requestManager.reqCounter + 1 := hserial
      refine Or.inl ⟨?_, ?_, ?_⟩
      · simp [ServiceFlagCoder.arrived, hfree]
      · simp only [ServiceFlagCoder.arrived, hid]
        exact hfree
      · simp only [ServiceFlagCoder.arrived, hid, hreg]
    · refine Or.inr ⟨?_, ?_⟩
      · simpa [ServiceFlagCoder.arrived] using Option.ne_none_iff_isSome.mp htaken
      · simp only [hreg]

/-! ## One `Encode` -/

theorem step_encode_cases {k len : Nat} {m : NetMessage}
    (h : s.step (.encode k len m) = some s') :
    ∃ r sent coder, s.outstanding[k]? = some r ∧ m.serialNo = r.id ∧
      s.coder.encode len m = some (sent, coder) ∧
      s' = ⟨coder, s.outstanding.eraseIdx k,
        s.log ++ [⟨r, s.coder, len, m, sent, coder.requestManager.requests⟩]⟩ := by
  rw [step] at h
  rcases hr : s.outstanding[k]? with - | r
  · rw [hr] at h
    cases h
  · rw [hr] at h
    by_cases hid : m.serialNo = r.id
    · simp only [if_pos hid] at h
      obtain ⟨⟨sent, coder⟩, henc, rfl⟩ := Option.map_eq_some_iff.mp h
      exact ⟨r, sent, coder, rfl, hid, henc, rfl⟩
    · simp only [if_neg hid] at h
      cases h

end ServiceState

/-- **An `Encode` that finds an entry** removes it; the response goes to the outer coder as it is if
the entry has no service and no key, and is wrapped otherwise. -/
theorem encode_entry {s s' : ServiceFlagCoder} {len : Nat} {m : NetMessage} {sent : Sent}
    {info : ServiceMsgInfo} (h : s.encode len m = some (sent, s'))
    (hentry : s.requestManager.requests m.serialNo = some info) :
    s'.requestManager.requests = update s.requestManager.requests m.serialNo none ∧
      ((info.service = [] ∧ info.key = [] ∧ s.encodeDirect len m = some sent) ∨
        (¬ (info.service = [] ∧ info.key = []) ∧ s.encodeWrapped info len m = some sent)) := by
  by_cases hempty : info.service = [] ∧ info.key = []
  · rw [ServiceFlagCoder.encode_plain hentry hempty] at h
    obtain ⟨out, hout, heq⟩ := Option.map_eq_some_iff.mp h
    obtain ⟨rfl, rfl⟩ := Prod.mk.inj heq
    exact ⟨rfl, Or.inl ⟨hempty.1, hempty.2, hout⟩⟩
  · rw [ServiceFlagCoder.encode_wrapped hentry hempty] at h
    obtain ⟨out, hout, heq⟩ := Option.map_eq_some_iff.mp h
    obtain ⟨rfl, rfl⟩ := Prod.mk.inj heq
    exact ⟨rfl, Or.inr ⟨hempty, hout⟩⟩

/-- **One response.** The response to a request whose entry, if it was registered, is in the table,
is right exactly if the request is answerable. -/
theorem answer_right_iff {s s' : ServiceFlagCoder} {len : Nat} {m : NetMessage} {sent : Sent}
    {r : Arrived} (hid : m.serialNo = r.id) (h : s.encode len m = some (sent, s'))
    (hentry : r.registered = true → s.requestManager.requests r.id = some r.info) :
    Answer.Right ⟨r, s, len, m, sent, s'.requestManager.requests⟩ ↔ r.Answerable := by
  by_cases hreg : r.registered = true
  · have hentry' := hentry hreg
    rw [← hid] at hentry'
    obtain ⟨hafter, hcases⟩ := encode_entry h hentry'
    rw [hid] at hafter
    rcases hcases with ⟨hservice, hkey, hdirect⟩ | ⟨hne, hwrapped⟩
    · obtain ⟨out, hout, rfl⟩ := Option.map_eq_some_iff.mp hdirect
      constructor
      · intro hright
        refine ⟨hreg, fun hw => ?_, fun hp => ?_⟩
        · -- the internal coder was handed nothing
          obtain ⟨out, -, ⟨-, hh⟩ | ⟨-, res, out', -, -, hh⟩⟩ := hright.wrapped hw
          · simpa using congrArg Sent.handed hh
          · simpa using congrArg Sent.handed hh
        · obtain ⟨out', -, hh⟩ := hright.plain hp
          have hm : m = { m with serialNo := r.info.serialNo } :=
            congrArg Prod.snd (List.singleton_inj.mp (congrArg Sent.handed hh))
          exact (congrArg NetMessage.serialNo hm).symm.trans hid
      · rintro ⟨-, hw, hp⟩
        have hplain : r.wrapped = false := by
          rw [← Bool.not_eq_true]
          intro hwrapped
          exact (hw hwrapped).elim (fun h => h hservice) (fun h => h hkey)
        have hm : { m with serialNo := r.info.serialNo } = m := by
          rw [hp hplain, ← hid]
        refine ⟨hreg, hentry hreg, hafter, fun hwrapped => ?_, fun _ => ⟨out, ?_, ?_⟩⟩
        · rw [hplain] at hwrapped
          cases hwrapped
        · exact (congrArg (s.coder.encode len) hm).trans hout
        · exact congrArg (fun m' => (⟨out, [(.coder, m')]⟩ : Sent)) hm.symm
    · have hw : r.wrapped = true := by
        rw [← Bool.not_eq_false]
        exact fun hp => hne (r.plain hp)
      have hplain : r.wrapped ≠ false := by simp [hw]
      refine iff_of_true ⟨hreg, hentry hreg, hafter, fun _ => ?_, fun hp => absurd hp hplain⟩
        ⟨hreg, fun _ => not_and_or.mp hne, fun hp => absurd hp hplain⟩
      rcases s.encodeWrapped_cases r.info len m with ⟨-, hnone⟩ | ⟨out, hin, hneg, hsent⟩ |
        ⟨out, res, out', hin, hpos, hres, hout', hsent⟩
      · rw [hnone] at hwrapped
        cases hwrapped
      · obtain rfl := Option.some.inj (hsent.symm.trans hwrapped)
        exact ⟨out, hin, Or.inl ⟨hneg, rfl⟩⟩
      · obtain rfl := Option.some.inj (hsent.symm.trans hwrapped)
        exact ⟨out, hin, Or.inr ⟨hpos, res, out', hres, hout', rfl⟩⟩
  · exact iff_of_false (fun hright => hreg hright.registered) (fun hans => hreg hans.1)

/-! ## Every run -/

namespace ServiceState

variable {s s' : ServiceState}

/-- Not two registered requests with one number. -/
def Apart (r q : Arrived) : Prop := r.registered = true → q.registered = true → r.id ≠ q.id

theorem Apart.symm {r q : Arrived} (h : Apart r q) : Apart q r := fun hq hr => (h hr hq).symm

/-- A correlated state, in which registered requests without a response have numbers of their own.
-/
structure Inv (s : ServiceState) : Prop extends s.Correlated where
  apart : s.outstanding.Pairwise Apart

theorem Started.inv (h : s.Started) : s.Inv where
  answers a ha := by
    rw [h.log] at ha
    cases ha
  entries r hr := by
    rw [h.outstanding] at hr
    cases hr
  apart := by
    rw [h.outstanding]
    exact List.Pairwise.nil

/-- One more request: the entries there were stay, and its own, if it was registered, is there. -/
theorem Inv.arrive (h : s.Inv) {r : Arrived} (hout : s'.outstanding = s.outstanding ++ [r])
    (hlog : s'.log = s.log)
    (hkept : ∀ q ∈ s.outstanding, q.registered = true →
      s'.coder.requestManager.requests q.id = some q.info)
    (hnew : r.registered = true → s'.coder.requestManager.requests r.id = some r.info)
    (hapart : ∀ q ∈ s.outstanding, Apart q r) : s'.Inv := by
  refine ⟨⟨?_, ?_⟩, ?_⟩
  · rw [hlog]
    exact h.answers
  · rw [hout]
    exact List.forall_mem_append.mpr ⟨hkept, List.forall_mem_singleton.mpr hnew⟩
  · rw [hout, List.pairwise_append]
    exact ⟨h.apart, List.pairwise_singleton _ _,
      fun q hq => List.forall_mem_singleton.mpr (hapart q hq)⟩

theorem Inv.decode (h : s.Inv) {outer inner : Bytes → Option NetMessage} {buf : Bytes}
    (hs : s.step (.decode outer inner buf) = some s') : s'.Inv := by
  rcases step_decode_cases hs with rfl | ⟨r, hout, hlog, ⟨hreg, hfree, htable⟩ | ⟨hreg, htable⟩⟩
  · exact h
  · -- the number was free, so that no registered request has it
    have hid : ∀ q ∈ s.outstanding, q.registered = true → q.id ≠ r.id := by
      intro q hq hqreg heq
      have hentry := h.entries q hq hqreg
      rw [heq, hfree] at hentry
      cases hentry
    refine h.arrive hout hlog (fun q hq hqreg => ?_) (fun _ => ?_)
      fun q hq hqreg _ => hid q hq hqreg
    · rw [htable, update_of_ne (hid q hq hqreg)]
      exact h.entries q hq hqreg
    · rw [htable, update_self]
  · have hno : r.registered ≠ true := by simp [hreg]
    refine h.arrive hout hlog (fun q hq hqreg => ?_) (absurd · hno) fun _ _ _ => (absurd · hno)
    rw [htable]
    exact h.entries q hq hqreg

theorem Inv.encode (h : s.Inv) {k len : Nat} {m : NetMessage}
    (hans : ∀ r, s.outstanding[k]? = some r → r.Answerable)
    (hs : s.step (.encode k len m) = some s') : s'.Inv := by
  obtain ⟨r, sent, coder, hr, hid, henc, rfl⟩ := step_encode_cases hs
  have hans := hans r hr
  obtain ⟨hk, hget⟩ := List.getElem?_eq_some_iff.mp hr
  have hperm : (r :: s.outstanding.eraseIdx k).Perm s.outstanding := by
    rw [← hget]
    exact List.getElem_cons_eraseIdx_perm hk
  have hmem : r ∈ s.outstanding := hperm.mem_iff.mp List.mem_cons_self
  have hright := (answer_right_iff hid henc (h.entries r hmem)).mpr hans
  have hapart : (r :: s.outstanding.eraseIdx k).Pairwise Apart :=
    (hperm.pairwise_iff Apart.symm).mpr h.apart
  rw [List.pairwise_cons] at hapart
  refine ⟨⟨?_, fun q hq hqreg => ?_⟩, hapart.2⟩
  · exact List.forall_mem_append.mpr ⟨h.answers, List.forall_mem_singleton.mpr hright⟩
  · have hremoved : coder.requestManager.requests =
        update s.coder.requestManager.requests r.id none := hright.removed
    rw [hremoved, update_of_ne (hapart.1 q hq hans.1 hqreg).symm]
    exact h.entries q (hperm.mem_iff.mp (List.mem_cons_of_mem r hq)) hqreg

theorem Inv.step (h : s.Inv) {e : ServiceCall} (hg : s.answerable e) (hs : s.step e = some s') :
    s'.Inv := by
  rcases e with ⟨outer, inner, buf⟩ | ⟨k, len, m⟩
  · exact h.decode hs
  · exact h.encode hg hs

/-- **Correlation.** In every run whose responses are all to answerable requests, from any value of
the counter on, every response is the right one, and the entry of a registered request is there
until its response is encoded. -/
theorem correlated_of_answerable {s₀ : ServiceState} (h₀ : s₀.Started)
    (h : Reach ServiceState.step ServiceState.answerable s₀ s) : s.Correlated :=
  (h.inv (I := Inv) h₀.inv fun hinv hg hs => hinv.step hg hs).toCorrelated

/-- A response that leaves a correlated state was to an answerable request. -/
theorem Inv.answerable_of_correlated (h : s.Inv) {k len : Nat} {m : NetMessage}
    (hs : s.step (.encode k len m) = some s') (hcor : s'.Correlated) :
    s.answerable (.encode k len m) := by
  intro q hq
  obtain ⟨r, sent, coder, hr, hid, henc, rfl⟩ := step_encode_cases hs
  obtain rfl : r = q := Option.some.inj (hr.symm.trans hq)
  have hright := hcor.answers _ (List.mem_append_right _ (List.mem_singleton.mpr rfl))
  exact (answer_right_iff hid henc (h.entries r (List.mem_of_getElem? hr))).mp hright

/-- A new coder with an outer `JsonCoder` and an internal `LineCoder`. -/
def fresh (reqCounter : Int32) : ServiceState :=
  ⟨⟨.json, .line, ⟨reqCounter, fun _ => none⟩⟩, [], []⟩

theorem fresh_started (reqCounter : Int32) : (fresh reqCounter).Started := ⟨fun _ => rfl, rfl, rfl⟩

/-- A line that carries a number. -/
def lineOf (serialNo : Int32) (line : Bytes) : NetMessage :=
  ⟨ascii "netmgr::LineMessage", serialNo, ⟨1, ascii "127.0.0.1:4000", 0⟩, some (0, .null),
    .line line⟩

/-- The test for `answerable`. -/
def answers (s : ServiceState) : ServiceCall → Bool
  | .encode k _ _ => s.outstanding[k]?.all fun r => r.Answerable
  | .decode _ _ _ => true

theorem answerable_of_answers (s : ServiceState) (e : ServiceCall) (h : s.answers e = true) :
    s.answerable e := by
  rcases e with ⟨outer, inner, buf⟩ | ⟨k, len, m⟩
  · trivial
  · intro r hr
    simpa [answers, hr] using h

/-- A wrapped and a plain request are answered, the second first. -/
theorem correlated_two_responses :
    ∃ s, Reach ServiceState.step ServiceState.answerable (fresh 0) s ∧ s.log.length = 2 ∧
      s.Correlated := by
  have hreach : Reach ServiceState.step ServiceState.answerable (fresh 0) _ :=
    Reach.init.run answerable_of_answers
      [.decode (fun _ => some (serviceResponse ⟨1, ascii "127.0.0.1:4000", 0⟩
          ⟨ascii "mq", ascii "k", 9⟩ (ascii "GET"))) (fun l => some (lineOf 0 l)) [],
        .decode (fun _ => some (lineOf 2 (ascii "GET"))) (fun _ => none) [],
        .encode 1 100 (lineOf 2 (ascii "OK")),
        .encode 0 100 (lineOf 1 (ascii "OK"))] rfl
  exact ⟨_, hreach, rfl, correlated_of_answerable (fresh_started 0) hreach⟩

/-- A plain request with the `serialNo` 7 is given the number 1, and so is its response. -/
theorem not_correlated : ¬ ∀ s₀ s : ServiceState, s₀.Started →
    Reach ServiceState.step free s₀ s → s.Correlated := by
  intro hall
  have hreach : Reach ServiceState.step free (fresh 0) _ := reach_of_run
    [.decode (fun _ => some (lineOf 7 (ascii "GET"))) (fun _ => none) [],
      .encode 0 100 (lineOf 1 (ascii "OK"))] rfl
  have hright := (hall _ _ (fresh_started 0) hreach).answers _ (List.mem_singleton.mpr rfl)
  obtain ⟨out, -, hsent⟩ := hright.plain rfl
  have hm := congrArg Prod.snd (List.singleton_inj.mp (congrArg Sent.handed hsent))
  exact absurd (congrArg NetMessage.serialNo hm) (by decide)

end ServiceState

end Domq.Netmgr
