import Domq.Lib.Wrap
import Domq.Mq.Broadcast
import Domq.Mq.ResponseText

/-!
# From the text of a request to the text of its answer, at the same time

The workers, each taking the text of a request, making the call on `QueueMgr` it is decoded to, and
encoding the text of the answer. This is the server of `System.lean` behind `Decode` and `Encode`
(`Domq.Lib.Wrap`), so that every result about its runs holds here too.

* `Posted`: a request as a client may write it, with what the connection adds to it. A
  `CloseMsgQueue` is none of them: it ends the process.
* `Told`: what the history of the server says of the texts.
* `journey`: the result. The string a `GetMsg` is answered with is one that a `SendMsg` has brought,
  and from each list they come in the order in which they went there.
-/

namespace Domq.Mq

open Domq.Lib Domq.Redis Domq.Jsoncpp

/-! ## The server of texts -/

/-- A request on a connection. -/
structure Posted (depth : Nat) extends WireRequest depth where
  short : body.length < 2 ^ 31
  answerable : req.msgClass ≠ .closeMsgQueueRequest
  addr : Bytes
  serialNo : Int32
  msgNo : Int32
  handleId : UInt64

/-- The text a worker answers with. -/
def Posted.answer {depth : Nat} (scan : Bytes → Option Double) (r : Posted depth) (x : Ret) :
    Option Bytes :=
  respond scan depth r.addr x r.serialNo r.msgNo r.handleId r.body

/-- The workers, from text to text. -/
def textServer (scan : Bytes → Option Double) (depth : Nat) :
    Sys Act Act.Res (Wrapped World (Posted depth) Ret (Option Bytes)) Env (Posted depth)
      (Ret × Option Bytes) :=
  (server .redis).wrap (fun r => r.req.op) (Posted.answer scan)

/-- The guard of a run of the workers. -/
def textGuard (depth : Nat) (G : Guard Act World Env Op) :
    Guard Act (Wrapped World (Posted depth) Ret (Option Bytes)) Env (Posted depth) :=
  Sys.wrapGuard (fun r => r.req.op) G

abbrev TextConf (depth : Nat) :=
  Cfg Act Act.Res (Wrapped World (Posted depth) Ret (Option Bytes)) (Posted depth)
    (Ret × Option Bytes)

/-- The server before any request. -/
def TextConf.boot (depth : Nat) (m : QueueMgr) (redis : Store) : TextConf depth :=
  ⟨⟨(Mq.boot m redis).shared, [], []⟩, fun _ => none⟩

/-! ## The history -/

/-- A section has given a result that it can give. -/
def Ev.Real : Ev → Prop
  | .locked _ s r => s.Gives r
  | .redis _ _ => True

/-- Every effect of the call is in the history, with what came before it. -/
def Logged (log : List Event) (t : Tid) (call : Call) : Prop :=
  ∀ pre ev post, call.evs = pre ++ ev :: post → .did t (some ⟨call.op, pre⟩) ev ∈ log

theorem Logged.mono {log log' : List Event} {t : Tid} {call : Call} (h : Logged log t call)
    (hl : ∀ e ∈ log, e ∈ log') : Logged log' t call := fun pre ev post heq =>
  hl _ (h pre ev post heq)

theorem Logged.did {log : List Event} {t : Tid} {call : Call} (h : Logged log t call) (ev : Ev) :
    Logged (log ++ [.did t (some call) ev]) t (call.did ev) := by
  intro pre ev' post heq
  have heq' : call.evs ++ [ev] = pre ++ ev' :: post := heq
  rcases List.eq_nil_or_concat post with rfl | ⟨post', x, rfl⟩
  · obtain ⟨rfl, rfl⟩ := evs_concat heq'
    exact List.mem_append_right _ (List.mem_singleton.mpr rfl)
  · rw [List.concat_eq_append, ← List.cons_append, ← List.append_assoc] at heq'
    obtain ⟨hevs, -⟩ := evs_concat heq'
    exact List.mem_append_left _ (h pre ev' post' hevs)

/-- An action does nothing that is seen, or has one effect. -/
theorem exec_effect {w w' : World} {t : Tid} {e : Env} {a : Act} {r : a.Res}
    (hex : w.exec .redis t e a = some (r, w')) :
    w'.cur = w.cur ∧ w'.log = w.log ∨
      ∃ ev : Ev, ev.Real ∧
        w'.cur = Function.update w.cur t ((w.cur t).map fun call => call.did ev) ∧
        w'.log = w.log ++ [.did t (w.cur t) ev] := by
  cases a with
  | append c =>
    cases hex
    exact .inl ⟨rfl, rfl⟩
  | getReply =>
    obtain ⟨c, cs, -, -, rfl⟩ := World.answer_eq hex
    exact .inr ⟨.redis c _, trivial, rfl, rfl⟩
  | command c =>
    obtain ⟨c, cs, -, -, rfl⟩ := World.answer_eq hex
    exact .inr ⟨.redis c _, trivial, rfl, rfl⟩
  | time =>
    cases hex
    exact .inl ⟨rfl, rfl⟩
  | locked s =>
    obtain ⟨-, m', hrun, rfl⟩ := World.lock_eq hex
    exact .inr ⟨.locked e.now s r, ⟨_, _, _, _, hrun⟩, rfl, rfl⟩

/-- What the history of the server says of the texts. -/
structure Told {depth : Nat} (c : TextConf depth) : Prop where
  running : ∀ t r p, c.run t = some (r, p) →
    ∃ evs, c.shared.inner.cur t = some ⟨r.req.op, evs⟩
  calls : ∀ t call, c.shared.inner.cur t = some call →
    (∃ r, (t, r) ∈ c.shared.asked ∧ call.op = r.req.op) ∧ (∀ ev ∈ call.evs, ev.Real) ∧
      Logged c.shared.inner.log t call
  dids : ∀ t call ev, Event.did t (some call) ev ∈ c.shared.inner.log →
    ∃ r, (t, r) ∈ c.shared.asked ∧ call.op = r.req.op
  answered : ∀ t r x y, (t, r, x, y) ∈ c.shared.answered →
    ∃ evs, .ret t (some ⟨r.req.op, evs⟩) x ∈ c.shared.inner.log ∧ (∀ ev ∈ evs, ev.Real) ∧
      Logged c.shared.inner.log t ⟨r.req.op, evs⟩

section

variable {scan : Bytes → Option Double} {depth : Nat} {G : Guard Act World Env Op}
  {c₀ c : TextConf depth}

/-- An action of a worker. -/
theorem Told.act (h : Told c) {t : Tid} {r : Posted depth} {w' : World}
    {p : Prog Act Act.Res (Ret × Option Bytes)} (hrun : ∃ p, c.run t = some (r, p))
    (hw : w'.cur = c.shared.inner.cur ∧ w'.log = c.shared.inner.log ∨
      ∃ ev : Ev, ev.Real ∧ w'.cur = Function.update c.shared.inner.cur t
          ((c.shared.inner.cur t).map fun call => call.did ev) ∧
        w'.log = c.shared.inner.log ++ [.did t (c.shared.inner.cur t) ev]) :
    Told ⟨{ c.shared with inner := w' }, Function.update c.run t (some (r, p))⟩ := by
  obtain ⟨p₀, hp₀⟩ := hrun
  have hold : ∀ t' r' p', Function.update c.run t (some (r, p)) t' = some (r', p') →
      ∃ p₁, c.run t' = some (r', p₁) := by
    intro t' r' p' heq
    by_cases ht : t' = t
    · subst ht
      rw [Function.update_self] at heq
      cases heq
      exact ⟨p₀, hp₀⟩
    · rw [Function.update_of_ne ht] at heq
      exact ⟨p', heq⟩
  rcases hw with ⟨hcur, hlog⟩ | ⟨ev, hreal, hcur, hlog⟩
  · refine ⟨fun t' r' p' heq => ?_, ?_, ?_, ?_⟩
    · obtain ⟨p₁, hp₁⟩ := hold t' r' p' heq
      simp only [hcur]
      exact h.running t' r' p₁ hp₁
    · simp only [hcur, hlog]
      exact h.calls
    · simp only [hlog]
      exact h.dids
    · simp only [hlog]
      exact h.answered
  · obtain ⟨evs, hcall⟩ := h.running t r p₀ hp₀
    obtain ⟨hasked, hevs, hlogged⟩ := h.calls t _ hcall
    have hmono : ∀ e ∈ c.shared.inner.log, e ∈ w'.log := fun e he => by
      rw [hlog]
      exact List.mem_append_left _ he
    rw [hcall] at hcur hlog
    refine ⟨fun t' r' p' heq => ?_, fun t' call heq => ?_, fun t' call ev' hmem => ?_,
      fun t' r' x y hmem => ?_⟩
    · obtain ⟨p₁, hp₁⟩ := hold t' r' p' heq
      simp only [hcur]
      by_cases ht : t' = t
      · subst ht
        cases hp₀.symm.trans hp₁
        exact ⟨evs ++ [ev], by rw [Function.update_self]; rfl⟩
      · rw [Function.update_of_ne ht]
        exact h.running t' r' p₁ hp₁
    · simp only [hcur] at heq
      by_cases ht : t' = t
      · subst ht
        rw [Function.update_self, Option.map_some, Option.some.injEq] at heq
        subst heq
        refine ⟨hasked, List.forall_mem_append.mpr ⟨hevs, List.forall_mem_singleton.mpr hreal⟩, ?_⟩
        rw [hlog]
        exact hlogged.did ev
      · rw [Function.update_of_ne ht] at heq
        obtain ⟨h₁, h₂, h₃⟩ := h.calls t' call heq
        exact ⟨h₁, h₂, h₃.mono hmono⟩
    · simp only [hlog] at hmem
      rcases List.mem_append.mp hmem with hmem | hmem
      · exact h.dids t' call ev' hmem
      · cases List.mem_singleton.mp hmem
        exact hasked
    · obtain ⟨evs', hret, h₂, h₃⟩ := h.answered t' r' x y hmem
      exact ⟨evs', hmono _ hret, h₂, h₃.mono hmono⟩

theorem Told.call (h : Told c) (scan : Bytes → Option Double) (t : Tid) (r : Posted depth)
    (p : Prog Act Act.Res (Ret × Option Bytes)) :
    Told ⟨(textServer scan depth).onCall c.shared t r, Function.update c.run t (some (r, p))⟩ := by
  refine ⟨fun t' r' p' heq => ?_, fun t' call heq => ?_, fun t' call ev hmem => ?_, h.answered⟩
  · by_cases ht : t' = t
    · subst ht
      simp only [Function.update_self] at heq
      cases heq
      exact ⟨[], by simp [textServer, Sys.wrap, server]⟩
    · simp only [Function.update_of_ne ht] at heq
      simp only [textServer, Sys.wrap, server, Function.update_of_ne ht]
      exact h.running t' r' p' heq
  · rcases World.update_cur heq with ⟨rfl, hnew⟩ | ⟨-, hold⟩
    · cases hnew
      refine ⟨⟨r, List.mem_append_right _ (List.mem_singleton.mpr rfl), rfl⟩,
        fun ev hev => absurd hev List.not_mem_nil, ?_⟩
      intro pre ev post hnil
      exact absurd hnil.symm (by simp)
    · obtain ⟨⟨r', hr', hop⟩, h₂, h₃⟩ := h.calls t' call hold
      exact ⟨⟨r', List.mem_append_left _ hr', hop⟩, h₂, h₃⟩
  · obtain ⟨r', hr', hop⟩ := h.dids t' call ev hmem
    exact ⟨r', List.mem_append_left _ hr', hop⟩

theorem Told.ret (h : Told c) (scan : Bytes → Option Double) {t : Tid} {r : Posted depth}
    (x : Ret × Option Bytes) (hrun : ∃ p, c.run t = some (r, p)) :
    Told ⟨(textServer scan depth).onRet c.shared t r x, Function.update c.run t none⟩ := by
  obtain ⟨p, hp⟩ := hrun
  obtain ⟨evs, hcall⟩ := h.running t r p hp
  obtain ⟨hasked, hevs, hlogged⟩ := h.calls t _ hcall
  have hmono : ∀ e ∈ c.shared.inner.log,
      e ∈ c.shared.inner.log ++ [.ret t (c.shared.inner.cur t) x.1] := fun e he =>
    List.mem_append_left _ he
  refine ⟨fun t' r' p' heq => ?_, fun t' call heq => ?_, fun t' call ev hmem => ?_,
    fun t' r' y z hmem => ?_⟩
  · by_cases ht : t' = t
    · subst ht
      simp at heq
    · simp only [Function.update_of_ne ht] at heq
      simp only [textServer, Sys.wrap, server, Function.update_of_ne ht]
      exact h.running t' r' p' heq
  · rcases World.update_cur heq with ⟨-, hnone⟩ | ⟨-, hold⟩
    · cases hnone
    · obtain ⟨h₁, h₂, h₃⟩ := h.calls t' call hold
      exact ⟨h₁, h₂, h₃.mono hmono⟩
  · rcases List.mem_append.mp hmem with hmem | hmem
    · exact h.dids t' call ev hmem
    · cases List.mem_singleton.mp hmem
  · rcases List.mem_append.mp hmem with hmem | hmem
    · obtain ⟨evs', hret, h₂, h₃⟩ := h.answered t' r' y z hmem
      exact ⟨evs', hmono _ hret, h₂, h₃.mono hmono⟩
    · cases List.mem_singleton.mp hmem
      refine ⟨evs, ?_, hevs, hlogged.mono hmono⟩
      rw [← hcall]
      exact List.mem_append_right _ (List.mem_singleton.mpr rfl)

theorem told_of_reach {m : QueueMgr} {redis : Store}
    (hc : (textServer scan depth).Reach (textGuard depth G) (TextConf.boot depth m redis) c) :
    Told c := by
  induction hc with
  | init =>
    refine ⟨fun t r p heq => ?_, fun t call heq => ?_, fun t call ev hmem => ?_,
      fun t r x y hmem => ?_⟩
    · cases heq
    · cases heq
    · cases hmem
    · cases hmem
  | call t r _ _ _ ih => exact ih.call scan t r ((textServer scan depth).prog r)
  | act t e _ hrun _ hex ih =>
    obtain ⟨⟨r, w'⟩, hinner, heq⟩ := Option.map_eq_some_iff.mp hex
    cases heq
    exact ih.act ⟨_, hrun⟩ (exec_effect hinner)
  | ret t _ hrun ih => exact ih.ret scan _ ⟨_, hrun⟩

end

/-! ## Lengths -/

/-- A session code has 32 characters. -/
theorem length_code {now : Nat} {a : OpenArgs} {code : Bytes}
    (h : (Ev.locked now (.openLock a) code).Real) : code.length = 32 := by
  obtain ⟨now', u, m, m', hrun⟩ := h
  simp only [Section.run, Option.some.injEq] at hrun
  have hcode : genMsgQueueCode u = code := congrArg Prod.fst hrun
  rw [← hcode, genMsgQueueCode, length_hexText, u.length_eq]

/-- A member of an object is a part of its text. -/
theorem members_part : ∀ {ms : List (Bytes × Tree)} {t : Bytes}, Members t ms →
    ∀ e ∈ ms, ∃ u, Denotes u e.2 ∧ u.length ≤ t.length
  | _, _, @Members.one w n name w₁ w₂ t w' v _ _ _ _ h _, e, he => by
    cases List.mem_singleton.mp he
    exact ⟨t, h, by simp only [List.length_append, List.length_cons]; omega⟩
  | _, _, @Members.cons w n name w₁ w₂ t w' ts v ms _ _ _ _ h _ hs, e, he => by
    rcases List.mem_cons.mp he with rfl | he
    · exact ⟨t, h, by simp only [List.length_append, List.length_cons]; omega⟩
    · obtain ⟨u, hu, hlen⟩ := members_part hs e he
      exact ⟨u, hu, by simp only [List.length_append, List.length_cons]; omega⟩

theorem lastMember_part {t : Bytes} {ms : List (Bytes × Tree)} (h : Denotes t (.object ms))
    {k : String} {v : Tree} (hk : lastMember ms k = some v) :
    ∃ u, Denotes u v ∧ u.length ≤ t.length := by
  obtain ⟨e, hfind, rfl⟩ := Option.map_eq_some_iff.mp hk
  have hmem := List.mem_reverse.mp (List.mem_of_find?_eq_some hfind)
  cases h with
  | emptyObject => cases hmem
  | object h =>
    obtain ⟨u, hu, hlen⟩ := members_part h e hmem
    exact ⟨u, hu, by simp only [List.length_append, List.length_cons]; omega⟩

/-- A message is no longer than the text that brings it. -/
theorem WireRequest.length_data {depth : Nat} (r : WireRequest depth) {code data : CStr}
    (h : r.req = .sendMsg code data) : data.bytes.length ≤ r.body.length := by
  obtain ⟨w, t, w', -, ht, -, hbody⟩ := r.text
  obtain ⟨ms, ps, hobj, -, hps, hparams, -⟩ := r.request
  rw [h] at hparams
  obtain ⟨-, b, hb, rfl⟩ := hparams
  rw [hobj] at ht
  obtain ⟨u, hu, hut⟩ := lastMember_part ht hps
  obtain ⟨v, hv, hvu⟩ := lastMember_part hu hb
  cases hv with
  | @string s _ hs =>
    calc (CStr.ofBytes b).bytes.length ≤ b.length := (List.takeWhile_sublist _).length_le
      _ ≤ s.length := stringText_length hs
      _ ≤ (quoted s).length := by simp only [quoted, List.length_append, List.length_cons]; omega
      _ ≤ t.length := hvu.trans hut
      _ ≤ r.body.length := by rw [hbody]; simp only [List.length_append]; omega

/-! ## Every run -/

section

variable {scan : Bytes → Option Double} {depth : Nat} {G : Guard Act World Env Op}
  {c : TextConf depth} {st₀ : Store}

/-- The call has returned `x` on a session whose list is `k`. -/
def PopsFrom (log : List Event) (t : Tid) (op : Op) (x : Ret) (k : Bytes) : Prop :=
  ∃ now code q cl ty evs,
    .ret t (some ⟨op, .locked now (.popLock code) (.go q cl ty) :: evs⟩) x ∈ log ∧
      k = popList q cl ty

/-- What was pushed was brought by a text. -/
theorem Told.pushed (h : Told c) {k d : Bytes} (hd : d ∈ pushedTo k c.shared.inner.log) :
    ∃ t p code data, (t, p) ∈ c.shared.asked ∧ p.req = .sendMsg code data ∧ data.bytes = d := by
  obtain ⟨ev, hev, hpush⟩ := List.mem_filterMap.mp hd
  unfold pushTo at hpush
  split at hpush
  · next t code data evs key d' r =>
    obtain ⟨p, hp, hop⟩ := h.dids t _ _ hev
    split at hpush
    · cases hpush
      refine ⟨t, p, ?_⟩
      cases hreq : p.req with
      | sendMsg code' data' =>
        rw [hreq] at hop
        cases hop
        exact ⟨code', data', hp, rfl, rfl⟩
      | _ =>
        rw [hreq] at hop
        cases hop
    · cases hpush
  · cases hpush

/-- What a `GetMsg` is answered with was popped from a list, and pushed to it in the same place. -/
theorem Told.popped (h : Told c) (hf : Fifos st₀ c.shared.inner) (hempty : ∀ k, st₀.list k = [])
    {t : Tid} {r : Posted depth} {x : Ret} {y : Option Bytes}
    (hans : (t, r, x, y) ∈ c.shared.answered) (hget : r.req.msgClass = .getMsgRequest)
    (hx : x.1 = SUCCESS) :
    ∃ (k : Bytes) (i : Nat) (d : Bytes), PopsFrom c.shared.inner.log t r.req.op x k ∧
      x.2 = some d ∧ (poppedFrom k c.shared.inner.log)[i]? = some d ∧
      (pushedTo k c.shared.inner.log)[i]? = some d := by
  obtain ⟨evs, hret, -, hlogged⟩ := h.answered t r x y hans
  cases hreq : r.req with
  | getMsg code autoReply =>
    rw [hreq] at hret hlogged
    rcases hf.rets t _ x hret with ⟨hne, -⟩ | ⟨now, q, cl, ty, r', now', r'', hevs, hcase⟩
    · exact absurd hx hne
    · rcases hcase with ⟨-, rfl⟩ | ⟨d, rfl, rfl⟩
      · exact absurd hx (by decide)
      · have hdid := hlogged [.locked now (.popLock code.bytes) (.go q cl ty)]
          (.redis (.lpop (popList q cl ty)) (.string d)) _ hevs
        have hmem : d ∈ poppedFrom (popList q cl ty) c.shared.inner.log :=
          List.mem_filterMap.mpr ⟨_, hdid, if_pos rfl⟩
        obtain ⟨i, hi⟩ := List.getElem?_of_mem hmem
        have hevs' : evs = _ := hevs
        rw [hevs'] at hret
        refine ⟨_, i, d, ⟨_, _, _, _, _, _, hret, rfl⟩, rfl, hi, ?_⟩
        have hlist := hf.lists (popList q cl ty)
        rw [hempty, List.nil_append] at hlist
        rw [← hlist]
        obtain ⟨hlt, -⟩ := List.getElem?_eq_some_iff.mp hi
        rw [List.getElem?_append_left hlt]
        exact hi
  | _ =>
    rw [hreq] at hget
    cases hget

/-- The string in an answer is short enough for `Json::Value`. -/
theorem Told.length_result (h : Told c) (hf : Fifos st₀ c.shared.inner)
    (hempty : ∀ k, st₀.list k = []) {t : Tid} {r : Posted depth} {x : Ret} {y : Option Bytes}
    (hans : (t, r, x, y) ∈ c.shared.answered)
    (hreq : r.req.msgClass = .openMsgQueueRequest ∨ r.req.msgClass = .getMsgRequest)
    (hx : x.1 = SUCCESS) : (x.2.getD []).length < 2 ^ 32 - 1 := by
  rcases hreq with hopen | hget
  · obtain ⟨evs, hret, hreal, -⟩ := h.answered t r x y hans
    cases hr : r.req with
    | openMsgQueue =>
      rw [hr] at hret
      rcases hf.rets t _ x hret with ⟨evs', now, code, rfl, -, hevs⟩ | ⟨hne, -⟩
      · have hcode := length_code (hreal _ (by
          rw [show evs = _ from hevs]
          exact List.mem_append_right _ (List.mem_singleton.mpr rfl)))
        rw [Option.getD_some, hcode]
        decide
      · exact absurd hx hne
    | _ =>
      rw [hr] at hopen
      cases hopen
  · obtain ⟨k, i, d, -, hd, -, hpush⟩ := h.popped hf hempty hans hget hx
    obtain ⟨t', p, code, data, -, hp, rfl⟩ := h.pushed (List.mem_of_getElem? hpush)
    have hlen := p.length_data hp
    have hshort := p.short
    rw [hd, Option.getD_some]
    omega

/-- **From text to text, at the same time.** In every state of every run of the workers on lists
that were empty: every request that was answered, was answered with a JSON text of its response; the
string that a `GetMsg` was answered with is the string of a `SendMsg` that had come, and it was
popped from the list of its session at the place at which it was pushed to it; and every list is a
FIFO queue. -/
theorem journey (hscan : ∀ t, IsNumber t → (scan t).isSome) {m : QueueMgr} (hst : WellTyped st₀)
    (hempty : ∀ k, st₀.list k = [])
    (hc : (textServer scan depth).Reach (textGuard depth G) (TextConf.boot depth m st₀) c)
    {log : List Event} (hlog : log = c.shared.inner.log) :
    (∀ t r x text, (t, r, x, text) ∈ c.shared.answered →
      ∃ s ms, text = some s ∧ JsonText s (.object ms) ∧ ResponseTree r.req r.id x ms ∧
        (r.req.msgClass = .getMsgRequest → x.1 = SUCCESS →
          ∃ (k : Bytes) (i : Nat) (rs : List (Bytes × Tree)) (t' : Tid) (p : Posted depth)
              (code data : CStr),
            PopsFrom log t r.req.op x k ∧ (t', p) ∈ c.shared.asked ∧ p.req = .sendMsg code data ∧
            lastMember ms "result" = some (.object rs) ∧ IsString (lastMember rs "data") data ∧
            (poppedFrom k log)[i]? = some data.bytes ∧ (pushedTo k log)[i]? = some data.bytes)) ∧
      ∀ k, poppedFrom k log ++ c.shared.inner.redis.list k = pushedTo k log := by
  subst hlog
  have htold := told_of_reach hc
  have hanswers := Sys.Reach.answers (fun _ => rfl) rfl hc
  obtain ⟨d, hd, hshared, -⟩ := Sys.Reach.unwrap (fun _ => rfl) hc
  obtain ⟨hf, -, -⟩ := reach_protocol (boot_boot m st₀) hst (Fifos.boot (boot_boot m st₀))
    (fun w t w' hw _ hs => hw.step hs) hd
  rw [hshared] at hf
  refine ⟨fun t r x text hans => ?_, fun k => ?_⟩
  · obtain ⟨s, ms, htext, hjson, htree⟩ :=
      respond_tree hscan r.text r.short r.fits r.numbers r.request
      r.answerable r.addr (htold.length_result hf hempty hans) r.serialNo r.msgNo r.handleId
    refine ⟨s, ms, (hanswers t r x text hans).trans htext, hjson, htree, fun hget hx => ?_⟩
    obtain ⟨k, i, d, hk, hxd, hpop, hpush⟩ := htold.popped hf hempty hans hget hx
    obtain ⟨t', p, code, data, hp, hreq, rfl⟩ := htold.pushed (List.mem_of_getElem? hpush)
    obtain ⟨rs, hrs, hdata⟩ := htree.data hget hx
    rw [hxd, Option.getD_some, CStr.ofBytes_bytes] at hdata
    exact ⟨k, i, rs, t', p, code, data, hk, hp, hreq, hrs, hdata, hpop, hpush⟩
  · have hlist := hf.lists k
    rwa [show (boot m st₀).shared.redis.list k = [] from hempty k, List.nil_append] at hlist

end

/-! ### A client that writes as the server does -/

/-- A request as `FastWriter` writes it, on a connection. -/
def Posted.write {depth : Nat} (req : Request) (id : Int64) (ps : List (CStr × Netmgr.Value))
    (hclose : req.msgClass ≠ .closeMsgQueueRequest) (hid : Kept id.toInt)
    (hps : ParamsTree (treeMembers ps) req) (hw : WellFormed (.object ps))
    (hshort : (requestValue req id ps).write.length < 2 ^ 31)
    (hdepth : (tree (requestValue req id ps)).depth ≤ depth) : Posted depth where
  toWireRequest := .write req id ps hid hps hw hdepth
  short := hshort
  answerable := hclose
  addr := []
  serialNo := 0
  msgNo := 0
  handleId := 0

section

def journeyQueue : CStr := ⟨ascii "q", noNul_q⟩
def journeyClient : CStr := ⟨ascii "c", noNul_c⟩

def openText : Posted 3 :=
  .write (.openMsgQueue journeyQueue 1 1 0 0 journeyClient) 1
    [(key "clientName", .string journeyClient), (key "create", .int 1), (key "duration", .int 0),
      (key "msgQueueName", .string journeyQueue), (key "option", .int 0), (key "role", .int 1)]
    (by decide) (by decide)
    ⟨⟨_, rfl, CStr.ofBytes_bytes _⟩, isIntegerTree_int 1, isIntegerTree_int 0, isIntegerTree_int 0,
      isIntegerTree_int 1, ⟨_, rfl, CStr.ofBytes_bytes _⟩⟩
    ⟨⟨trivial, trivial, trivial, trivial, trivial, trivial, trivial⟩,
      (by decide : InOrder ["clientName", "create", "duration", "msgQueueName", "option", "role"])⟩
    (by decide +kernel) (by decide)

def putText : Posted 3 where
  toWireRequest := sendRequest
  short := by decide +kernel
  answerable := by decide
  addr := []
  serialNo := 0
  msgNo := 0
  handleId := 0

def getText : Posted 3 :=
  .write (.getMsg requestCode true) 3
    [(key "autoReply", .int 1), (key "msgQueueCode", .string requestCode)]
    (by decide) (by decide) ⟨⟨_, rfl, CStr.ofBytes_bytes _⟩, isIntegerTree_int 1⟩
    ⟨⟨trivial, trivial, trivial⟩, (by decide : InOrder ["autoReply", "msgQueueCode"])⟩
    (by decide +kernel) (by decide)

/-- A queue is opened, a message is sent to it, and another worker gets it. -/
def threeTexts : List (Sys.Move Env (Posted 3)) :=
  let e : Env := ⟨5, .ofByte 1, none⟩
  .call 0 openText :: List.replicate 8 (.step 0 e) ++
    .call 0 putText :: List.replicate 7 (.step 0 e) ++
    .call 1 getText :: List.replicate 7 (.step 1 e)

theorem journey_three : ∃ c s ms rs,
    (textServer scanInteger 3).Reach (textGuard 3 Sys.free)
      (TextConf.boot 3 (QueueMgr.init 1000) fun _ => none) c ∧
      (1, getText, (SUCCESS, some requestData.bytes), some s) ∈ c.shared.answered ∧
      JsonText s (.object ms) ∧ lastMember ms "result" = some (.object rs) ∧
      IsString (lastMember rs "data") requestData := by
  have hsome : ((textServer scanInteger 3).moves (fun _ _ => true)
      (TextConf.boot 3 (QueueMgr.init 1000) fun _ => none) threeTexts).isSome := rfl
  have hreach := Sys.reach_free (textServer scanInteger 3) _ threeTexts (Option.some_get hsome).symm
  have hans : ∃ y, (1, getText, (SUCCESS, some requestData.bytes), y) ∈
      (Option.get _ hsome).shared.answered := ⟨_, List.mem_of_getElem? (rfl : _[2]? = some _)⟩
  obtain ⟨y, hans⟩ := hans
  obtain ⟨s, ms, rfl, hjson, htree, -⟩ := (journey (G := Sys.free) (fun _ _ => rfl)
    wellTyped_empty (fun _ => rfl) hreach rfl).1 _ _ _ _ hans
  obtain ⟨rs, hrs, hdata⟩ := htree.data rfl rfl
  exact ⟨_, s, ms, rs, hreach, hans, hjson, hrs, hdata⟩

end

end Domq.Mq
