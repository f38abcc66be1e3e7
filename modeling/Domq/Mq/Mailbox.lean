import Domq.Lib.Atomic
import Domq.Mq.Fifo
import Domq.Mq.Session

/-!
# A queue is a mailbox

What a queue is for, to its clients: a `Mailbox` of which sessions are opened, into which messages
are put and from which they are got, oldest first. Any number of threads call on the server, in any
interleaving and without a reload, while Redis executes every command; to the clients of any queue
it is as if every call had its whole effect on the mailbox at one point between its call and its
return (`linearizable`).

* `Mailbox.Answers q`: what the calls may answer. A session outlives its closing here, as a call
  that has found it may still have its effect. The lists of subscribers are `Domq.Mq.Broadcast`, and
  whether one was entered is not part of the mailbox: the first session may find it either way.
* `effected`: the point of a call is the section that registers a session, its `RPUSH`, or its
  `LPOP`; every other call has no effect on the mailbox.
* `Serves`: what holds between the server and the mailbox.
-/

namespace Domq.Mq

open Domq.Lib Domq.Redis

/-! ## The mailbox -/

structure Mailbox where
  /-- the type of the queue, once it is cached -/
  type : Option Int32
  /-- the sessions that were opened -/
  codes : Set Bytes
  messages : List Bytes

/-- What a call may answer, for the mailbox of the queue `q`. -/
inductive Mailbox.Answers (q : CStr) (b : Mailbox) : Op → Ret → Mailbox → Prop
  /-- The first session sets the type: to the one it asks for, or to `PEER2PEER`, which it finds in
  the entry that a subscriber has made before it. -/
  | opened (a : OpenArgs) (code : Bytes) (ty : Int32) (hq : a.msgQueueName = q)
      (hnew : code ∉ b.codes)
      (hty : b.type = some ty ∨ b.type = none ∧ (ty = a.msgType ∨ ty = PEER2PEER)) :
      Answers q b (.openQueue a) (SUCCESS, some code)
        { b with type := some ty, codes := insert code b.codes }
  | openedOther (a : OpenArgs) (code : Bytes) (hq : a.msgQueueName ≠ q) (hnew : code ∉ b.codes) :
      Answers q b (.openQueue a) (SUCCESS, some code) b
  | notOpened (a : OpenArgs) (x : Ret) (hx : x.1 ≠ SUCCESS) : Answers q b (.openQueue a) x b
  | put (code data : Bytes) (hcode : code ∈ b.codes) (hty : b.type ≠ some SUB2PUB) :
      Answers q b (.pushMsg code data) (SUCCESS, none)
        { b with messages := b.messages ++ [data] }
  | notPut (code data : Bytes) (x : Ret) (hx : x.1 ≠ SUCCESS) : Answers q b (.pushMsg code data) x b
  | putOther (code data : Bytes) (x : Ret) (h : code ∉ b.codes ∨ b.type = some SUB2PUB) :
      Answers q b (.pushMsg code data) x b
  | got (code data : Bytes) (rest : List Bytes) (hcode : code ∈ b.codes)
      (hty : b.type ≠ some SUB2PUB) (h : b.messages = data :: rest) :
      Answers q b (.popMsg code) (SUCCESS, some data) { b with messages := rest }
  | empty (code : Bytes) (hcode : code ∈ b.codes) (hty : b.type ≠ some SUB2PUB)
      (h : b.messages = []) : Answers q b (.popMsg code) (NO_EXIST, none) b
  | notGot (code : Bytes) : Answers q b (.popMsg code) (QUEUECODE_NOEXIST, none) b
  | gotOther (code : Bytes) (x : Ret) (h : code ∉ b.codes ∨ b.type = some SUB2PUB) :
      Answers q b (.popMsg code) x b
  | closed (code : Bytes) (x : Ret) : Answers q b (.closeQueue code) x b
  | expired (e : Int) (x : Ret) : Answers q b (.removeExpireMsgQueueCode e) x b

/-! ## What a call returns -/

/-- A contract that owes nothing, and sees what the call has done. -/
def noted : Prog.Contract Act Act.Res (Option Call) where
  gua _ _ := True
  step g
    | .append _, _, g' => g' = g
    | .getReply, _, g' => ∃ c r, g' = g.map fun call => call.did (.redis c r)
    | .command _, _, g' => ∃ c r, g' = g.map fun call => call.did (.redis c r)
    | .time, _, g' => g' = g
    | .locked s, r, g' => ∃ now, g' = g.map fun call => call.did (.locked now s r)

/-- What `Returns` does not say: a `PushMsg` returns no message, and a `PopMsg` that finds no
session returns what its section has given. -/
def Gives (op : Op) (g : Option Call) (x : Ret) : Prop :=
  match op with
  | .pushMsg _ _ => x.2 = none
  | .popMsg code =>
    ∀ now ret, g = some ⟨.popMsg code, [.locked now (.popLock code) (.fail ret)]⟩ → x = (ret, none)
  | _ => True

/-- What every effect keeps holds at the end. -/
theorem meets_noted {α : Type} {P : Option Call → Prop} {Q : Option Call → α → Prop}
    (hP : ∀ g ev, P g → P (g.map fun call => call.did ev)) (hQ : ∀ g x, P g → Q g x)
    (p : QProg α) {g : Option Call} (hg : P g) : p.Meets noted Q g := by
  induction p generalizing g with
  | ret x => exact hQ g x hg
  | act a k ih =>
    refine ⟨trivial, fun r g' hstep => ih r ?_⟩
    cases a with
    | append c | time =>
      obtain rfl : g' = g := hstep
      exact hg
    | getReply | command c =>
      obtain ⟨c, r, rfl⟩ := hstep
      exact hP _ _ hg
    | locked s =>
      obtain ⟨now, rfl⟩ := hstep
      exact hP _ _ hg

theorem callProg_noted (op : Op) : (callProg op).Meets noted (Gives op) (some ⟨op, []⟩) := by
  cases op with
  | pushMsg code data =>
    show (pushMsg code data >>= fun ret => return (ret, none)).Meets _ _ _
    rw [Prog.meets_bind]
    exact meets_noted (P := fun _ => True) (fun _ _ h => h) (fun _ _ _ => rfl) _ trivial
  | popMsg code =>
    show (popMsg code).Meets _ _ _
    unfold popMsg
    refine ⟨trivial, fun r g' hstep => ?_⟩
    obtain ⟨now, rfl⟩ := hstep
    cases r with
    | fail ret =>
      intro now' ret' heq
      cases heq
      rfl
    | go q c ty =>
      -- the section stays the first thing the call has done
      refine meets_noted (P := fun g => ∃ evs, g = some ⟨.popMsg code,
        .locked now (.popLock code) (.go q c ty) :: evs⟩) ?_ ?_ _ ⟨[], rfl⟩
      · rintro g ev ⟨evs, rfl⟩
        exact ⟨evs ++ [ev], rfl⟩
      · rintro g x ⟨evs, rfl⟩ now' ret' heq
        cases heq
  | _ => exact meets_noted (P := fun _ => True) (fun _ _ h => h) (fun _ _ h => h) _ trivial

theorem gives_of_reach {G : Guard Act World Env Op} {c₀ c : Conf} (hb : Boot c₀)
    (hc : (server .redis).Reach G c₀ c) {t : Tid} {op : Op} {x : Ret}
    (hrun : c.run t = some (op, .ret x)) : Gives op (c.shared.cur t) x := by
  have hrule : Sys.Rule (server .redis) G noted (fun w t => w.cur t) (fun _ => True)
      (fun _ => True) Gives := by
    constructor
    · intro w t op _ _ _
      refine ⟨trivial, ?_, fun t' ht => Function.update_of_ne ht _ _⟩
      show (callProg op).Meets noted (Gives op) (Function.update w.cur t (some ⟨op, []⟩) t)
      rw [Function.update_self]
      exact callProg_noted op
    · intro w t e a r w' _ _ _ hex
      replace hex : w.exec .redis t e a = some (r, w') := hex
      refine ⟨trivial, ?_, fun t' ht => World.exec_cur hex ht⟩
      cases a with
      | append c | time =>
        cases hex
        rfl
      | getReply | command c =>
        obtain ⟨c, cs, -, -, rfl⟩ := World.answer_eq hex
        exact ⟨c, _, Function.update_self ..⟩
      | locked s =>
        obtain ⟨-, m', -, rfl⟩ := World.lock_eq hex
        exact ⟨e.now, Function.update_self ..⟩
    · exact fun _ _ => ⟨trivial, trivial, fun t' ht => Function.update_of_ne ht _ _⟩
  have hT := (Sys.Reach.inv hrule trivial (fun t => by rw [hb.run]; trivial) hc).2 t
  rw [hrun] at hT
  exact hT

/-! ## The point of a call -/

/-- What a `PopMsg` returns for the reply to its `LPOP`. -/
def gotFrom : Reply → Ret
  | .string d => (SUCCESS, some d)
  | _ => (NO_EXIST, none)

/-- What the call will return, when it has had its effect on the mailbox of `q`. -/
def effected (q : CStr) : Call → Option Ret
  | ⟨.openQueue _, evs⟩ =>
    match evs.getLast? with
    | some (.locked _ (.openLock _) code) => some (SUCCESS, some code)
    | _ => none
  | ⟨.pushMsg _ _, .locked _ (.pushLock _) (.go q' _ ty _) :: _ :: _⟩ =>
    if q' = q ∧ ty ≠ SUB2PUB then some (SUCCESS, none) else none
  | ⟨.popMsg _, .locked _ (.popLock _) (.go q' _ ty) :: .redis _ r :: _⟩ =>
    if q' = q ∧ ty ≠ SUB2PUB then some (gotFrom r) else none
  | _ => none

/-- Where a thread is, for the mailbox of `q`. -/
def placeOf (q : CStr) : Option Call → Place Op Ret
  | none => .idle
  | some call =>
    match effected q call with
    | none => .called call.op
    | some x => .done call.op x

/-- The call has found the session `code`, on the queue `q` of type `ty`. -/
inductive Finds (code : Bytes) (q : CStr) (ty : Int32) : List Ev → Prop
  | push (now : Nat) (c : CStr) (buf : List CStr) (evs : List Ev) :
      Finds code q ty (.locked now (.pushLock code) (.go q c ty buf) :: evs)
  | pop (now : Nat) (c : CStr) (evs : List Ev) :
      Finds code q ty (.locked now (.popLock code) (.go q c ty) :: evs)

/-- What a call has found is so. -/
structure Looked (q : CStr) (used : List Uuid) (b : Mailbox) (evs : List Ev) : Prop where
  found : ∀ code q' ty, Finds code q' ty evs →
    (∃ u ∈ used, genMsgQueueCode u = code) ∧ (code ∈ b.codes ↔ q' = q) ∧
      (q' = q → b.type = some ty)
  missed : ∀ now code ret evs', evs = .locked now (.popLock code) (.fail ret) :: evs' →
    ret = QUEUECODE_NOEXIST

/-- What holds between the server and the mailbox of `q`. -/
structure Serves (q : CStr) (w : World) (b : Mailbox) (place : Tid → Place Op Ret) : Prop where
  typed : ∀ ty, b.type = some ty → TypeIs w.mgr q ty
  untyped : b.type = none → b.codes = ∅ ∧ (w.mgr.cache q = none ∨ TypeIs w.mgr q PEER2PEER)
  messages : b.messages = w.redis.list (getQueueMsgName q.bytes)
  sessions : ∀ code item, w.mgr.msgQueueCode2QueueName code = some item →
    (code ∈ b.codes ↔ item.queueName = q) ∧ w.mgr.name2Queue item.queueName ≠ none
  codes : ∀ code ∈ b.codes, ∃ u ∈ w.used, genMsgQueueCode u = code
  looked : ∀ t call, w.cur t = some call → Looked q w.used b call.evs
  noLoad : ∀ t call, w.cur t = some call → call.op ≠ .loadQueueMeta
  place : ∀ t, place t = placeOf q (w.cur t)

/-! ### Steps -/

variable {q : CStr} {w w' : World} {b b' : Mailbox} {place : Tid → Place Op Ret} {t : Tid}

theorem finds_append {code : Bytes} {q : CStr} {ty : Int32} {evs : List Ev} {ev : Ev}
    (h : Finds code q ty (evs ++ [ev])) :
    Finds code q ty evs ∨ evs = [] ∧ Finds code q ty [ev] := by
  cases evs with
  | nil => exact .inr ⟨rfl, h⟩
  | cons ev' evs =>
    cases h with
    | push now c buf _ => exact .inl (.push now c buf evs)
    | pop now c _ => exact .inl (.pop now c evs)

theorem looked_nil (q : CStr) (used : List Uuid) (b : Mailbox) : Looked q used b [] where
  found _ _ _ hf := by cases hf
  missed _ _ _ _ heq := by cases heq

/-- An effect that is no lookup adds nothing to what the call has found. -/
theorem Looked.did {used : List Uuid} {evs : List Ev} (h : Looked q used b evs) {ev : Ev}
    (hfinds : ∀ code q' ty, ¬ Finds code q' ty [ev])
    (hmisses : ∀ now code ret, ev ≠ .locked now (.popLock code) (.fail ret)) :
    Looked q used b (evs ++ [ev]) where
  found code q' ty hf := by
    rcases finds_append hf with hf | ⟨-, hf⟩
    · exact h.found code q' ty hf
    · exact absurd hf (hfinds code q' ty)
  missed now code ret evs' heq := by
    cases evs with
    | nil => exact absurd (List.cons.inj heq).1 (hmisses now code ret)
    | cons ev evs =>
      obtain ⟨rfl, -⟩ := List.cons.inj heq
      exact h.missed now code ret evs rfl

theorem Looked.redis {used : List Uuid} {evs : List Ev} (h : Looked q used b evs) (c : Cmd)
    (r : Reply) : Looked q used b (evs ++ [.redis c r]) :=
  h.did (fun _ _ _ hf => by cases hf) fun _ _ _ heq => by cases heq

/-- More sessions are opened, with new uuids. -/
theorem Looked.mono {used used' : List Uuid} {evs : List Ev} (h : Looked q used b evs)
    (hused : ∀ u ∈ used, u ∈ used') (hcodes : ∀ code, (∃ u ∈ used, genMsgQueueCode u = code) →
      (code ∈ b'.codes ↔ code ∈ b.codes)) (htype : ∀ ty, b.type = some ty → b'.type = some ty) :
    Looked q used' b' evs where
  found code q' ty hf := by
    obtain ⟨hu, hcode, hty⟩ := h.found code q' ty hf
    refine ⟨?_, (hcodes code hu).trans hcode, fun hq => htype ty (hty hq)⟩
    obtain ⟨u, hmem, hgen⟩ := hu
    exact ⟨u, hused u hmem, hgen⟩
  missed := h.missed

theorem placeOf_called {call : Call} (h : effected q call = none) :
    placeOf q (some call) = .called call.op := by
  simp [placeOf, h]

theorem placeOf_done {call : Call} {x : Ret} (h : effected q call = some x) :
    placeOf q (some call) = .done call.op x := by
  simp [placeOf, h]

/-- Where the threads are after an effect of `t`. -/
theorem placeOf_did (ev : Ev) {call : Call} (hcur : w.cur t = some call)
    (hplace : ∀ t, place t = placeOf q (w.cur t)) (t' : Tid) :
    Function.update place t (placeOf q (some (call.did ev))) t' =
      placeOf q ((w.did t ev).cur t') := by
  simp only [World.did]
  by_cases ht : t' = t
  · subst ht
    rw [Function.update_self, Function.update_self, hcur]
    rfl
  · rw [Function.update_of_ne ht, Function.update_of_ne ht]
    exact hplace t'

/-- A command that is no point of its call. -/
theorem Serves.command {call : Call} {c : Cmd} {pipe : Tid → List Cmd} (h : Serves q w b place)
    (hcur : w.cur t = some call)
    (hlist : (c.exec w.redis).2.list (getQueueMsgName q.bytes) =
      w.redis.list (getQueueMsgName q.bytes))
    (heff : effected q (call.did (.redis c (c.exec w.redis).1)) = effected q call) :
    Serves q ({ w with redis := (c.exec w.redis).2, pipe := pipe }.did t
      (.redis c (c.exec w.redis).1)) b place where
  typed := h.typed
  untyped := h.untyped
  messages := h.messages.trans hlist.symm
  sessions := h.sessions
  codes := h.codes
  looked t' call' hcur' := by
    rcases World.did_cur hcur' with ⟨-, call₀, hcur₀, rfl⟩ | ⟨-, hcur'⟩
    · exact (h.looked t call₀ hcur₀).redis _ _
    · exact h.looked t' call' hcur'
  noLoad := World.did_op (P := fun _ op => op ≠ .loadQueueMeta) h.noLoad
  place t' := by
    have hsame : place = Function.update place t
        (placeOf q (some (call.did (.redis c (c.exec w.redis).1)))) := by
      have hp : placeOf q (some (call.did (.redis c (c.exec w.redis).1))) = place t := by
        rw [h.place, hcur]
        simp only [placeOf, heff]
        rfl
      rw [hp, Function.update_eq_self]
    rw [hsame]
    exact placeOf_did (w := { w with redis := (c.exec w.redis).2, pipe := pipe }) _ hcur h.place t'

/-- A command that is the point of its call. -/
theorem Serves.point {call : Call} {c : Cmd} {pipe : Tid → List Cmd} {x : Ret}
    {messages : List Bytes} (h : Serves q w b place) (hcur : w.cur t = some call)
    (hlist : (c.exec w.redis).2.list (getQueueMsgName q.bytes) = messages)
    (hbefore : effected q call = none)
    (hafter : effected q (call.did (.redis c (c.exec w.redis).1)) = some x)
    (hspec : Mailbox.Answers q b call.op x { b with messages := messages }) :
    ∃ b' place', AtMostPoint (Mailbox.Answers q) t b place b' place' ∧
      Serves q ({ w with redis := (c.exec w.redis).2, pipe := pipe }.did t
        (.redis c (c.exec w.redis).1)) b' place' := by
  have hcalled : place t = .called call.op := by
    rw [h.place, hcur, placeOf_called hbefore]
  refine ⟨_, _, .one hcalled hspec, h.typed, h.untyped, hlist.symm, h.sessions, h.codes,
    fun t' call' hcur' => ?_, World.did_op (P := fun _ op => op ≠ .loadQueueMeta) h.noLoad,
    fun t' => ?_⟩
  · rcases World.did_cur hcur' with ⟨-, call₀, hcur₀, rfl⟩ | ⟨-, hcur'⟩
    · exact ⟨((h.looked t call₀ hcur₀).redis _ _).found,
        ((h.looked t call₀ hcur₀).redis _ _).missed⟩
    · exact ⟨(h.looked t' call' hcur').found, (h.looked t' call' hcur').missed⟩
  · have hop : (call.did (.redis c (c.exec w.redis).1)).op = call.op := rfl
    rw [← hop, ← placeOf_done hafter]
    exact placeOf_did (w := { w with redis := (c.exec w.redis).2, pipe := pipe }) _ hcur h.place t'

theorem list_eq_of_exec {c : Cmd} {st : Store} (hf : c.Fits st) (hpush : ∀ k d, c ≠ .rpush k d)
    (hpop : ∀ k, c ≠ .lpop k) (k : Bytes) : (c.exec st).2.list k = st.list k := by
  rw [Cmd.list_exec hf]
  cases c with
  | rpush k' d => exact absurd rfl (hpush k' d)
  | lpop k' => exact absurd rfl (hpop k')
  | _ => rfl

/-- A command of a `PushMsg` that is not on this mailbox. -/
theorem list_of_push_other {q' : CStr} {ty : Int32} {buf : List CStr} {data : Bytes} {now : Nat}
    {evs : List Ev} {cmd : Cmd} {rest : List Cmd} {st : Store}
    (h : (pushCmds q' ty buf data now).map some = evs.map Ev.cmd? ++ some cmd :: rest.map some)
    (hf : cmd.Fits st) (hq : ¬ (q' = q ∧ ty ≠ SUB2PUB)) :
    (cmd.exec st).2.list (getQueueMsgName q.bytes) = st.list (getQueueMsgName q.bytes) := by
  by_cases hsub : ty = SUB2PUB
  · subst hsub
    exact push_subs (Exec.mem_pushCmds h) st hf q
  · have hne : getQueueMsgName q'.bytes ≠ getQueueMsgName q.bytes := fun hk =>
      hq ⟨CStr.bytes_inj.mp (getQueueMsgName_injective hk), hsub⟩
    rw [Cmd.list_exec hf]
    rcases push_single hsub h with ⟨-, rfl⟩ | ⟨-, f, v, rfl⟩
    · exact if_neg hne
    · rfl

/-- **A command.** -/
theorem Serves.redis {call : Call} {c : Cmd} (pipe : Tid → List Cmd) (h : Serves q w b place)
    (hcur : w.cur t = some call) (hex : Exec call c) (hf : c.Fits w.redis) :
    ∃ b' place', AtMostPoint (Mailbox.Answers q) t b place b' place' ∧
      Serves q ({ w with redis := (c.exec w.redis).2, pipe := pipe }.did t
        (.redis c (c.exec w.redis).1)) b' place' := by
  have hlooked := h.looked t call hcur
  cases hex with
  | push code data now q' cl ty buf evs now' rest _ hcmds =>
    obtain ⟨-, hcode, hty⟩ := hlooked.found code q' ty (.push now cl buf evs)
    by_cases hq : q' = q ∧ ty ≠ SUB2PUB
    · obtain ⟨rfl, hsub⟩ := hq
      have htype : b.type ≠ some SUB2PUB := by
        rw [hty rfl]
        exact fun heq => hsub (Option.some.inj heq)
      rcases push_single hsub hcmds with ⟨rfl, rfl⟩ | ⟨⟨ev, rfl⟩, f, v, rfl⟩
      · refine h.point hcur ?_ rfl (if_pos ⟨rfl, hsub⟩) (.put code data (hcode.mpr rfl) htype)
        rw [Cmd.list_exec hf, h.messages]
        exact if_pos rfl
      · exact ⟨b, place, .none,
          h.command hcur (list_eq_of_exec hf (by simp) (by simp) _) rfl⟩
    · refine ⟨b, place, .none, h.command hcur (list_of_push_other hcmds hf hq) ?_⟩
      cases evs with
      | nil => exact if_neg hq
      | cons ev evs => exact (if_neg hq).trans (if_neg hq).symm
  | pop code now q' cl ty =>
    obtain ⟨-, hcode, hty⟩ := hlooked.found code q' ty (.pop now cl [])
    by_cases hq : q' = q ∧ ty ≠ SUB2PUB
    · obtain ⟨rfl, hsub⟩ := hq
      have htype : b.type ≠ some SUB2PUB := by
        rw [hty rfl]
        exact fun heq => hsub (Option.some.inj heq)
      have hkey : popList q' cl ty = getQueueMsgName q'.bytes := if_neg hsub
      have hlist : ((Cmd.lpop (popList q' cl ty)).exec w.redis).2.list (getQueueMsgName q'.bytes) =
          b.messages.tail := by
        rw [Cmd.list_exec hf, h.messages, hkey]
        exact if_pos rfl
      have hreply : ((Cmd.lpop (popList q' cl ty)).exec w.redis).1 =
          Cmd.reply w.redis (.lpop (getQueueMsgName q'.bytes)) := by
        rw [Cmd.exec_reply hf, hkey]
      have hmessages := h.messages
      cases hm : b.messages with
      | nil =>
        rw [hm] at hlist hmessages
        refine h.point hcur hlist rfl (if_pos ⟨rfl, hsub⟩) ?_
        have hnil : ((Cmd.lpop (popList q' cl ty)).exec w.redis).1 = .nil := by
          simp [hreply, Cmd.reply, ← hmessages]
        rw [hnil, show ({ b with messages := [].tail } : Mailbox) = b by rw [List.tail_nil, ← hm]]
        exact .empty code (hcode.mpr rfl) htype hm
      | cons d rest =>
        rw [hm] at hlist hmessages
        refine h.point hcur hlist rfl (if_pos ⟨rfl, hsub⟩) ?_
        have hstring : ((Cmd.lpop (popList q' cl ty)).exec w.redis).1 = .string d := by
          simp [hreply, Cmd.reply, ← hmessages]
        rw [hstring]
        exact .got code d rest (hcode.mpr rfl) htype hm
    · refine ⟨b, place, .none, h.command hcur ?_ (if_neg hq)⟩
      rw [Cmd.list_exec hf]
      refine if_neg fun hk => hq ?_
      unfold popList at hk
      split at hk
      · exact absurd hk.symm (getQueueMsgName_ne_subName _ _ _)
      · next hsub => exact ⟨CStr.bytes_inj.mp (getQueueMsgName_injective hk), hsub⟩
  | popVisit code now q' cl ty r now' =>
    refine ⟨b, place, .none, h.command hcur (list_eq_of_exec hf ?_ ?_ _) rfl⟩
    · unfold popVisit
      split <;> simp
    · unfold popVisit
      split <;> simp
  | load ev evs hr _ hc =>
    exact ⟨b, place, .none,
      h.command hcur (list_eq_of_exec hf (by cases hc <;> simp) (by cases hc <;> simp) _) rfl⟩
  | _ =>
    exact ⟨b, place, .none, h.command hcur
      (list_eq_of_exec hf (fun k d heq => by cases heq) (fun k heq => by cases heq) _) rfl⟩

theorem cached_iff {m : QueueMgr} {q : CStr} : m.name2Queue q ≠ none ↔ ∃ ty, TypeIs m q ty := by
  rw [← not_iff_not, not_not, ← QueueMgr.cache_eq_none]
  constructor
  · rintro hnone ⟨ty, queue, hq, -⟩
    rw [hnone] at hq
    cases hq
  · intro hno
    by_contra hne
    obtain ⟨queue, hq⟩ := Option.ne_none_iff_exists'.mp hne
    exact hno ⟨_, queue, hq, rfl⟩

/-- A section that is no point of its call. -/
theorem Serves.section {call : Call} {ev : Ev} {m' : QueueMgr} {clock : Nat}
    (h : Serves q w b place) (hcur : w.cur t = some call)
    (hsessions : ∀ code item, m'.msgQueueCode2QueueName code = some item →
      w.mgr.msgQueueCode2QueueName code = some item)
    (htypes : ∀ q' ty, TypeIs w.mgr q' ty → TypeIs m' q' ty)
    (hcache : w.mgr.cache q = none → m'.cache q = none ∨ TypeIs m' q PEER2PEER)
    (hlooked : Looked q w.used b (call.evs ++ [ev]))
    (heff : effected q (call.did ev) = effected q call) :
    Serves q ({ w with mgr := m', clock := clock }.did t ev) b place where
  typed ty hty := htypes q ty (h.typed ty hty)
  untyped hty := by
    obtain ⟨hcodes, hnone | hpeer⟩ := h.untyped hty
    · exact ⟨hcodes, hcache hnone⟩
    · exact ⟨hcodes, .inr (htypes q _ hpeer)⟩
  messages := h.messages
  sessions code item hi := by
    obtain ⟨hcode, hq⟩ := h.sessions code item (hsessions code item hi)
    obtain ⟨ty, hty⟩ := cached_iff.mp hq
    exact ⟨hcode, cached_iff.mpr ⟨ty, htypes _ ty hty⟩⟩
  codes := h.codes
  looked t' call' hcur' := by
    rcases World.did_cur hcur' with ⟨-, call₀, hcur₀, rfl⟩ | ⟨-, hcur'⟩
    · cases hcur.symm.trans hcur₀
      exact hlooked
    · exact h.looked t' call' hcur'
  noLoad := World.did_op (P := fun _ op => op ≠ .loadQueueMeta) h.noLoad
  place t' := by
    have hp : placeOf q (some (call.did ev)) = place t := by
      rw [h.place, hcur]
      simp only [placeOf, heff]
      rfl
    have hplace := placeOf_did (w := { w with mgr := m', clock := clock }) ev hcur h.place t'
    rwa [hp, Function.update_eq_self] at hplace

/-- What a lookup finds. -/
theorem Serves.finds (h : Serves q w b place) (htab : Table w) {code : Bytes} {item : CodeItem}
    {queue : Queue} (hi : w.mgr.msgQueueCode2QueueName code = some item)
    (hq : w.mgr.name2Queue item.queueName = some queue) :
    (∃ u ∈ w.used, genMsgQueueCode u = code) ∧ (code ∈ b.codes ↔ item.queueName = q) ∧
      (item.queueName = q → b.type = some queue.option.msgType) := by
  obtain ⟨hcode, -⟩ := h.sessions code item hi
  refine ⟨htab.used code (by rw [hi]; rfl), hcode, fun heq => ?_⟩
  cases hty : b.type with
  | none =>
    have hmem := hcode.mpr heq
    rw [(h.untyped hty).1] at hmem
    exact hmem.elim
  | some ty =>
    have hcached : TypeIs w.mgr q queue.option.msgType :=
      ⟨queue.cached, QueueMgr.cache_of_name2Queue (heq ▸ hq), rfl⟩
    rw [(h.typed ty hty).unique hcached]

theorem Serves.pushLock (h : Serves q w b place) (htab : Table w) {code : Bytes} {now : Nat}
    {r : QueueMgr.PushLock} {m' : QueueMgr} (hl : w.mgr.pushLock now code = (r, m')) :
    Looked q w.used b [.locked now (.pushLock code) r] where
  found code' q' ty hf := by
    cases hf with
    | push _ c buf _ =>
      rcases w.mgr.pushLock_cases now code with ⟨ret, -, hl', -⟩ | ⟨item, queue, hi, hq, hl'⟩
      · rw [hl'] at hl
        cases hl
      · rw [hl'] at hl
        obtain ⟨hr, -⟩ := Prod.mk.inj hl
        split at hr
        · cases hr
        · cases hr
          exact h.finds htab hi hq
  missed _ _ _ _ heq := by cases heq

theorem Serves.popLock (h : Serves q w b place) (htab : Table w) {code : Bytes} {now : Nat}
    {r : QueueMgr.PopLock} {m' : QueueMgr} (hl : w.mgr.popLock now code = (r, m')) :
    Looked q w.used b [.locked now (.popLock code) r] where
  found code' q' ty hf := by
    cases hf with
    | pop _ c _ =>
      rcases w.mgr.popLock_cases now code with ⟨ret, -, hl', -⟩ | ⟨item, queue, hi, hq, hl'⟩
      · rw [hl'] at hl
        cases hl
      · rw [hl'] at hl
        cases hl
        exact h.finds htab hi hq
  missed now' code' ret evs' heq := by
    cases heq
    cases hi : w.mgr.msgQueueCode2QueueName code with
    | none =>
      simp only [QueueMgr.popLock, QueueMgr.getQueueName, hi] at hl
      exact (QueueMgr.PopLock.fail.inj (Prod.mk.inj hl).1).symm
    | some item =>
      obtain ⟨queue, hq⟩ := Option.ne_none_iff_exists'.mp (h.sessions code item hi).2
      simp [QueueMgr.popLock, QueueMgr.getQueueName, hi, hq] at hl

theorem effected_granted {a : OpenArgs} {evs : List Ev} (h : Granted a evs) :
    effected q ⟨.openQueue a, evs⟩ = none := by
  cases h with
  | _ => rfl

theorem effected_openLock (a : OpenArgs) (evs : List Ev) (now : Nat) (code : Bytes) :
    effected q ⟨.openQueue a, evs ++ [.locked now (.openLock a) code]⟩ =
      some (SUCCESS, some code) := by
  simp [effected]

/-- The mailbox when a session is opened. -/
theorem Serves.opens (h : Serves q w b place) {a : OpenArgs} {code : Bytes}
    (hnew : code ∉ b.codes) {cache' : CStr → Option Cached}
    (hcache : cache' = Section.onCache w.mgr.cache (.openLock a)) :
    ∃ b', Mailbox.Answers q b (.openQueue a) (SUCCESS, some code) b' ∧
      b'.messages = b.messages ∧
      (∀ code', code' ∈ b'.codes ↔ code' = code ∧ a.msgQueueName = q ∨ code' ∈ b.codes) ∧
      (∀ ty, b.type = some ty → b'.type = some ty) ∧
      (∀ ty, b'.type = some ty → ∃ queue, cache' q = some queue ∧ queue.1.msgType = ty) ∧
      (b'.type = none → b'.codes = ∅ ∧ cache' q = w.mgr.cache q) := by
  by_cases hq : a.msgQueueName = q
  · subst hq
    have hself : cache' a.msgQueueName =
        some ((w.mgr.cache a.msgQueueName).getD (a.option, [])) := by
      rw [hcache]
      exact Function.update_self ..
    -- the type that is cached, or that of the call
    have hty : b.type = some ((w.mgr.cache a.msgQueueName).getD (a.option, [])).1.msgType ∨
        b.type = none ∧
          (((w.mgr.cache a.msgQueueName).getD (a.option, [])).1.msgType = a.msgType ∨
            ((w.mgr.cache a.msgQueueName).getD (a.option, [])).1.msgType = PEER2PEER) := by
      cases hb : b.type with
      | some ty =>
        obtain ⟨queue, hqueue, rfl⟩ := h.typed ty hb
        exact .inl (by rw [hqueue]; rfl)
      | none =>
        rcases (h.untyped hb).2 with hnone | ⟨queue, hqueue, hpeer⟩
        · exact .inr ⟨rfl, .inl (by rw [hnone]; rfl)⟩
        · exact .inr ⟨rfl, .inr (by rw [hqueue]; exact hpeer)⟩
    refine ⟨_, .opened a code _ rfl hnew hty, rfl, fun code' => ?_, fun ty hb => ?_,
      fun ty hb => ?_, fun hb => by cases hb⟩
    · simp
    · rcases hty with heq | ⟨hnone, -⟩
      · exact heq.symm.trans hb
      · rw [hnone] at hb
        cases hb
    · exact ⟨_, hself, Option.some.inj hb⟩
  · have hother : cache' q = w.mgr.cache q := by
      rw [hcache]
      exact Function.update_of_ne (Ne.symm hq) _ _
    refine ⟨b, .openedOther a code hq hnew, rfl, fun code' => ?_, fun _ hb => hb, fun ty hb => ?_,
      fun hb => ⟨(h.untyped hb).1, hother⟩⟩
    · simp [hq]
    · rw [hother]
      exact h.typed ty hb

/-- The section that registers a session. -/
theorem Serves.openLock {call : Call} {a : OpenArgs} {evs : List Ev} {e : Env} {m' : QueueMgr}
    {code : Bytes} (h : Serves q w b place) (hcur : w.cur t = some call)
    (hcall : call = ⟨.openQueue a, evs⟩) (hg : Granted a evs) (hu : e.uuid ∉ w.used)
    (hrun : (Section.openLock a).run e.now e.uuid w.mgr = some (code, m')) :
    ∃ b' place', AtMostPoint (Mailbox.Answers q) t b place b' place' ∧
      Serves q ({ w with mgr := m', clock := e.now, used := e.uuid :: w.used }.did t
        (.locked e.now (.openLock a) code)) b' place' := by
  subst hcall
  have hcache := QueueMgr.cache_run hrun
  have htypes : ∀ q' ty, TypeIs w.mgr q' ty → TypeIs m' q' ty := fun q' ty =>
    typeIs_lock hrun (fun n heq => by cases heq)
  obtain ⟨rfl, rfl⟩ : genMsgQueueCode e.uuid = code ∧ (w.mgr.openLock e.now e.uuid a).2 = m' :=
    Prod.mk.inj (Option.some.inj hrun)
  have hnew : ∀ code', (∃ u ∈ w.used, genMsgQueueCode u = code') →
      code' ≠ genMsgQueueCode e.uuid := by
    rintro code' ⟨u, hmem, rfl⟩ heq
    exact hu (genMsgQueueCode_injective heq ▸ hmem)
  obtain ⟨b', hspec, hmessages, hcodes, hkeep, htyped, huntyped⟩ :=
    h.opens (fun hmem => hnew _ (h.codes _ hmem) rfl) hcache
  have hcalled : place t = .called (.openQueue a) := by
    rw [h.place, hcur, placeOf_called (effected_granted hg)]
  have hold : ∀ code', (∃ u ∈ w.used, genMsgQueueCode u = code') →
      (code' ∈ b'.codes ↔ code' ∈ b.codes) := fun code' hused => by
    simp [hcodes, hnew code' hused]
  refine ⟨b', _, .one hcalled hspec, htyped, fun hb => ?_, hmessages.trans h.messages,
    fun code' item hi => ?_, fun code' hmem => ?_, fun t' call' hcur' => ?_,
    World.did_op (P := fun _ op => op ≠ .loadQueueMeta) h.noLoad, fun t' => ?_⟩
  · obtain ⟨hempty, hsame⟩ := huntyped hb
    have hnone : b.type = none := by
      cases hty : b.type with
      | none => rfl
      | some ty =>
        rw [hkeep ty hty] at hb
        cases hb
    refine ⟨hempty, (h.untyped hnone).2.imp hsame.trans (htypes q _)⟩
  · have hi' : Function.update w.mgr.msgQueueCode2QueueName (genMsgQueueCode e.uuid)
        (some ⟨a.msgQueueName, a.clientName, w.mgr.nextNode⟩) code' = some item := hi
    by_cases hc : code' = genMsgQueueCode e.uuid
    · subst hc
      rw [Function.update_self] at hi'
      cases hi'
      have hfresh : genMsgQueueCode e.uuid ∉ b.codes := fun hmem => hnew _ (h.codes _ hmem) rfl
      refine ⟨by simp [hcodes, hfresh], cached_iff.mpr ?_⟩
      refine ⟨_, _, (congrFun hcache _).trans (Function.update_self ..), rfl⟩
    · rw [Function.update_of_ne hc] at hi'
      obtain ⟨hcode, hq⟩ := h.sessions code' item hi'
      obtain ⟨ty, hty⟩ := cached_iff.mp hq
      refine ⟨?_, cached_iff.mpr ⟨ty, htypes _ ty hty⟩⟩
      rw [hcodes, ← hcode]
      simp [hc]
  · rcases (hcodes code').mp hmem with ⟨rfl, -⟩ | hmem
    · exact ⟨e.uuid, List.mem_cons_self, rfl⟩
    · obtain ⟨u, hmem, hgen⟩ := h.codes code' hmem
      exact ⟨u, List.mem_cons_of_mem _ hmem, hgen⟩
  · have hmono : ∀ {evs'}, Looked q w.used b evs' → Looked q (e.uuid :: w.used) b' evs' :=
      fun hl => hl.mono (fun u hu => List.mem_cons_of_mem _ hu) hold hkeep
    rcases World.did_cur hcur' with ⟨-, call₀, hcur₀, rfl⟩ | ⟨-, hcur'⟩
    · refine (hmono (h.looked t call₀ hcur₀)).did ?_ ?_
      · exact fun _ _ _ hf => by cases hf
      · exact fun _ _ _ heq => by cases heq
    · exact hmono (h.looked t' call' hcur')
  · -- the section is the point of the call
    have hdone := placeOf_done (effected_openLock (q := q) a evs e.now (genMsgQueueCode e.uuid))
    rw [← hdone]
    exact placeOf_did (.locked e.now (.openLock a) (genMsgQueueCode e.uuid)) hcur h.place t'

/-- Only `OpenQueue` adds sessions. -/
theorem session_of_step {m m' : QueueMgr} {now : Nat} {us : Option Bytes}
    (h : QueueMgr.SessionStep now m m' us none) {code : Bytes} {item : CodeItem}
    (hi : m'.msgQueueCode2QueueName code = some item) :
    m.msgQueueCode2QueueName code = some item := by
  cases h with
  | use _ hmap _ => rwa [hmap] at hi
  | dropped _ hmap =>
    rw [hmap] at hi
    split at hi
    · exact hi
    · cases hi

/-- **A locked section.** -/
theorem Serves.locked {call : Call} {s : Section} {e : Env} {r : s.Res} (h : Serves q w b place)
    (htab : Table w) (hcur : w.cur t = some call) (hl : Locks call s)
    (hlock : w.lock t e s = some (r, w')) :
    ∃ b' place', AtMostPoint (Mailbox.Answers q) t b place b' place' ∧ Serves q w' b' place' := by
  obtain ⟨-, -, hstep⟩ := htab.lock hlock
  obtain ⟨hu, m', hrun, rfl⟩ := World.lock_eq hlock
  have hcache := QueueMgr.cache_run hrun
  have hnot : ∀ n, s ≠ .swapQueues n := hl.not_swap (h.noLoad t call hcur)
  have htypes : ∀ q' ty, TypeIs w.mgr q' ty → TypeIs m' q' ty := fun _ _ => typeIs_lock hrun hnot
  have hlooked := h.looked t call hcur
  cases hl with
  | openLock a evs hg => exact h.openLock hcur rfl hg (hu rfl) hrun
  | addClient a hrep hf hp now rep =>
    refine ⟨b, place, .none, h.section hcur (fun _ _ => session_of_step hstep) htypes
      (fun hnone => ?_) (hlooked.did (fun _ _ _ hf => by cases hf) fun _ _ _ heq => by cases heq)
      rfl⟩
    rw [hcache]
    simp only [Section.onCache]
    by_cases hq : q = a.msgQueueName
    · subst hq
      refine .inr ⟨_, (congrFun hcache _).trans (Function.update_self ..), ?_⟩
      rw [hnone]
      rfl
    · exact .inl ((Function.update_of_ne hq _ _).trans hnone)
  | pushLock code data =>
    exact ⟨b, place, .none, h.section hcur (fun _ _ => session_of_step hstep) htypes
      (fun hnone => .inl ((congrFun hcache q).trans hnone))
      (h.pushLock htab (Option.some.inj hrun)) (by cases r with | _ => rfl)⟩
  | popLock code =>
    exact ⟨b, place, .none, h.section hcur (fun _ _ => session_of_step hstep) htypes
      (fun hnone => .inl ((congrFun hcache q).trans hnone))
      (h.popLock htab (Option.some.inj hrun)) (by cases r with | _ => rfl)⟩
  | closeQueue code | removeExpire exp =>
    exact ⟨b, place, .none, h.section hcur (fun _ _ => session_of_step hstep) htypes
      (fun hnone => .inl ((congrFun hcache q).trans hnone))
      (hlooked.did (fun _ _ _ hf => by cases hf) fun _ _ _ heq => by cases heq) rfl⟩
  | swapQueues names evs tmp hr hread => exact absurd rfl (hnot tmp)

/-! ### Returns -/

theorem effected_refused {a : OpenArgs} {evs : List Ev} (h : Refused a evs) :
    effected q ⟨.openQueue a, evs⟩ = none := by
  cases h with
  | _ => rfl

/-- A call that returns has had its effect, or has none. -/
theorem Serves.answers {call : Call} {x : Ret} (h : Serves q w b place)
    (hcur : w.cur t = some call) (hret : Returns call x) (hgives : Gives call.op (some call) x) :
    effected q call = some x ∨
      effected q call = none ∧ Mailbox.Answers q b call.op x b := by
  obtain ⟨op, evs⟩ := call
  have hlooked : Looked q w.used b evs := h.looked t _ hcur
  have hother : ∀ {code q' ty}, Finds code q' ty evs → ¬ (q' = q ∧ ty ≠ SUB2PUB) →
      code ∉ b.codes ∨ b.type = some SUB2PUB := by
    intro code q' ty hf hq
    obtain ⟨-, hcode, hty⟩ := hlooked.found code q' ty hf
    by_cases heq : q' = q
    · have hsub : ty = SUB2PUB := by_contra fun hne => hq ⟨heq, hne⟩
      exact .inr (hsub ▸ hty heq)
    · exact .inl fun hmem => heq (hcode.mp hmem)
  cases op with
  | openQueue a =>
    rcases hret with ⟨evs', now, code, rfl, -, hevs⟩ | ⟨hx, href⟩
    · obtain rfl : evs = evs' ++ [.locked now (.openLock a) code] := hevs
      exact .inl (effected_openLock a evs' now code)
    · exact .inr ⟨effected_refused href, .notOpened a x hx⟩
  | pushMsg code data =>
    have hnone : x.2 = none := hgives
    by_cases hx : x.1 = SUCCESS
    · obtain rfl : x = (SUCCESS, none) := Prod.ext hx hnone
      obtain ⟨now, q', cl, ty, buf, now', evs', hevs, hcmds⟩ := hret.1 rfl
      obtain rfl : evs = .locked now (.pushLock code) (.go q' cl ty buf) :: evs' := hevs
      by_cases hq : q' = q ∧ ty ≠ SUB2PUB
      · have hlen : evs'.length = 2 := by
          have := congrArg List.length hcmds
          simpa [pushCmds, hq.2] using this
        obtain ⟨ev, evs'', rfl⟩ := List.exists_cons_of_length_pos (hlen ▸ Nat.zero_lt_two)
        exact .inl (if_pos hq)
      · refine .inr ⟨?_, .putOther code data _ (hother (.push now cl buf evs') hq)⟩
        cases evs' with
        | nil => rfl
        | cons ev evs'' => exact if_neg hq
    · obtain ⟨now, r, hevs, -⟩ := hret.2 hx
      obtain rfl : evs = [.locked now (.pushLock code) r] := hevs
      refine .inr ⟨?_, .notPut code data x hx⟩
      cases r with
      | _ => rfl
  | popMsg code =>
    rcases hret with ⟨-, -, now, ret, hevs⟩ | ⟨now, q', cl, ty, r, now', r', hevs, hx⟩
    · obtain rfl : evs = [.locked now (.popLock code) (.fail ret)] := hevs
      obtain rfl := hgives now ret rfl
      obtain rfl := hlooked.missed now code ret [] rfl
      exact .inr ⟨rfl, .notGot code⟩
    · obtain rfl : evs = [.locked now (.popLock code) (.go q' cl ty),
        .redis (.lpop (popList q' cl ty)) r, .redis (popVisit q' cl ty now') r'] := hevs
      by_cases hq : q' = q ∧ ty ≠ SUB2PUB
      · refine .inl ((if_pos hq).trans ?_)
        rcases hx with ⟨rfl, rfl⟩ | ⟨d, rfl, rfl⟩
        · rfl
        · rfl
      · exact .inr ⟨if_neg hq, .gotOther code x (hother (.pop now cl _) hq)⟩
  | closeQueue code => exact .inr ⟨rfl, .closed code x⟩
  | removeExpireMsgQueueCode exp => exact .inr ⟨rfl, .expired exp x⟩
  | loadQueueMeta => exact absurd rfl (h.noLoad t _ hcur)

/-! ### Every run -/

theorem table_of_reach {link : Link} {G : Guard Act World Env Op} {c₀ c : Conf}
    (h₀ : NoSessions c₀.shared.mgr) (hc : (server link).Reach G c₀ c) : Table c.shared := by
  refine hc.of_steps h₀.table ?_ ?_ ?_
  · intro w t op hw _
    exact ⟨hw.sessions, hw.used⟩
  · intro w t e a r w' hw _ hex
    exact hw.exec link hex
  · intro w t op x hw
    exact ⟨hw.sessions, hw.used⟩

/-- **An action.** -/
theorem Serves.act {e : Env} {a : Act} {r : a.Res} (h : Serves q w b place) (htab : Table w)
    (hw : WellTyped w.redis) (hgua : proto.gua (ghost w t) a)
    (hex : w.exec .redis t e a = some (r, w')) :
    ∃ b' place', AtMostPoint (Mailbox.Answers q) t b place b' place' ∧ Serves q w' b' place' := by
  cases a with
  | append c | time =>
    cases hex
    exact ⟨b, place, .none, h.typed, h.untyped, h.messages, h.sessions, h.codes, h.looked,
      h.noLoad, h.place⟩
  | getReply =>
    obtain ⟨call, c, cs, hcur, hpipe, hx⟩ := hgua
    obtain ⟨c', cs', hp, rfl, rfl⟩ := World.answer_eq hex
    cases hpipe.symm.trans hp
    exact h.redis _ hcur hx (hw.fits hx.wellKeyed)
  | command c =>
    obtain ⟨call, hcur, hpipe, hx⟩ := hgua
    have hpipe' : w.pipe t = [] := hpipe
    obtain ⟨c', cs', hp, rfl, rfl⟩ := World.answer_eq hex
    have hc : c' = c ∧ cs' = [] := by simpa [World.append, hpipe', eq_comm] using hp
    obtain ⟨rfl, rfl⟩ := hc
    exact h.redis _ hcur hx (hw.fits hx.wellKeyed)
  | locked s =>
    obtain ⟨call, hcur, hl⟩ := hgua
    exact h.locked htab hcur hl hex

/-- The mailbox of `q` at the start. -/
def Mailbox.start (q : CStr) (w : World) : Mailbox where
  type := (w.mgr.cache q).map fun queue => queue.1.msgType
  codes := ∅
  messages := w.redis.list (getQueueMsgName q.bytes)

theorem serves_start {c₀ : Conf} (hb : Boot c₀) (hno : NoSessions c₀.shared.mgr) (q : CStr) :
    Serves q c₀.shared (.start q c₀.shared) fun _ => .idle where
  typed ty hty := by
    obtain ⟨queue, hq, rfl⟩ := Option.map_eq_some_iff.mp hty
    exact ⟨queue, hq, rfl⟩
  untyped hty := ⟨rfl, .inl (Option.map_eq_none_iff.mp hty)⟩
  messages := rfl
  sessions code item hi := by simp [hno.map] at hi
  codes code hmem := hmem.elim
  looked t call hcur := by simp [hb.cur] at hcur
  noLoad t call hcur := by simp [hb.cur] at hcur
  place t := by rw [hb.cur]; rfl

theorem serves_simulation {c₀ : Conf} (hb : Boot c₀) (hst : WellTyped c₀.shared.redis)
    (hno : NoSessions c₀.shared.mgr) (q : CStr) :
    Simulation (server .redis) noReload c₀ (Mailbox.Answers q) (.start q c₀.shared) (Serves q) := by
  have hthreads : ∀ {c}, (server .redis).Reach noReload c₀ c → WellTyped c.shared.redis ∧
      ∀ t, Sys.ThreadOk proto (fun g => g = ⟨[], none⟩) Ends (ghost c.shared t) (c.run t) := by
    intro c hc
    obtain ⟨⟨-, hw⟩, hT⟩ := threads_of_reach (I := fun _ => True) hb hst trivial
      (fun _ _ _ _ _ _ => trivial) hc
    exact ⟨hw, hT⟩
  refine ⟨serves_start hb hno q, ?_, ?_, ?_⟩
  · intro c t op b place hc hidle hg h
    have hcur : c.shared.cur t = none := by
      have hT := (hthreads hc).2 t
      rw [hidle] at hT
      exact congrArg Ghost.cur hT
    refine ⟨by rw [h.place, hcur]; rfl, h.typed, h.untyped, h.messages, h.sessions, h.codes,
      fun t' call hcur' => ?_, fun t' call hcur' => ?_, fun t' => ?_⟩
    · rcases World.update_cur hcur' with ⟨-, heq⟩ | ⟨-, hcur'⟩
      · cases heq
        exact looked_nil q _ b
      · exact h.looked t' call hcur'
    · rcases World.update_cur hcur' with ⟨-, heq⟩ | ⟨-, hcur'⟩
      · cases heq
        exact hg
      · exact h.noLoad t' call hcur'
    · show _ = placeOf q (Function.update c.shared.cur t (some ⟨op, []⟩) t')
      have heff : effected q ⟨op, []⟩ = none := by cases op with | _ => rfl
      by_cases ht : t' = t
      · subst ht
        rw [Function.update_self, Function.update_self, placeOf_called heff]
      · rw [Function.update_of_ne ht, Function.update_of_ne ht, h.place]
  · intro c t e op a k r s' b place hc hrun _ hex h
    obtain ⟨hw, hT⟩ := hthreads hc
    have hp := hT t
    rw [hrun] at hp
    exact h.act (table_of_reach hno hc) hw hp.1 hex
  · intro c t op x b place hc hrun h
    have hp := (hthreads hc).2 t
    rw [hrun] at hp
    obtain ⟨call, hgh, rfl, hret⟩ := hp
    have hcur : c.shared.cur t = some call := congrArg Ghost.cur hgh
    have hgives := gives_of_reach hb hc hrun
    rw [hcur] at hgives
    have hafter : ∀ {place' : Tid → Place Op Ret},
        (∀ t', t' ≠ t → place' t' = place t') →
        Serves q ((server .redis).onRet c.shared t call.op x) b
          (Function.update place' t .idle) := by
      intro place' hsame
      refine ⟨h.typed, h.untyped, h.messages, h.sessions, h.codes, fun t' call' hcur' => ?_,
        fun t' call' hcur' => ?_, fun t' => ?_⟩
      · rcases World.update_cur hcur' with ⟨-, heq⟩ | ⟨-, hcur'⟩
        · cases heq
        · exact h.looked t' call' hcur'
      · rcases World.update_cur hcur' with ⟨-, heq⟩ | ⟨-, hcur'⟩
        · cases heq
        · exact h.noLoad t' call' hcur'
      · show _ = placeOf q (Function.update c.shared.cur t none t')
        by_cases ht : t' = t
        · subst ht
          rw [Function.update_self, Function.update_self]
          rfl
        · rw [Function.update_of_ne ht, Function.update_of_ne ht, hsame t' ht, h.place]
    rcases h.answers hcur hret hgives with heff | ⟨heff, hspec⟩
    · exact ⟨b, place, .none, by rw [h.place, hcur, placeOf_done heff], hafter fun _ _ => rfl⟩
    · refine ⟨b, _, .one (by rw [h.place, hcur, placeOf_called heff]) hspec,
        Function.update_self .., hafter fun t' ht => Function.update_of_ne ht _ _⟩

/-- **The server is linearizable.** Whatever is seen of any number of threads that call on it
without a reload, from a start without sessions and while Redis executes every command: for every
queue, each call can be given one point between its call and its return such that the calls, in the
order of their points, are a run of the mailbox of the queue with the answers that were returned;
and the messages left in the mailbox are the list that Redis holds. -/
theorem linearizable {c₀ c : Conf} {h : List (Seen Op Ret)} (hb : Boot c₀)
    (hst : WellTyped c₀.shared.redis) (hno : NoSessions c₀.shared.mgr)
    (hc : (server .redis).History noReload c₀ h c) (q : CStr) :
    ∃ b, Linearizable (Mailbox.Answers q) (.start q c₀.shared) h b ∧
      b.messages = c.shared.redis.list (getQueueMsgName q.bytes) := by
  obtain ⟨marks, b, place, hl, hserves⟩ := hc.linearizes (serves_simulation hb hst hno q)
  exact ⟨b, ⟨marks, place, hl⟩, hserves.messages⟩

/-- A publisher opens a queue and pushes a message; before it returns, another thread has popped
it. -/
def overlapping : List (Sys.Move Env Op) :=
  callSteps 0 (.openQueue ⟨⟨ascii "q", noNul_q⟩, PEER2PEER, 0, 0, .publisher, 1,
      ⟨ascii "c", noNul_c⟩⟩) 8 ⟨5, .ofByte 0, none⟩ ++
    callSteps 0 (.pushMsg (hexText (List.replicate 16 0)) (ascii "a")) 5 ⟨6, .ofByte 1, none⟩ ++
    callSteps 1 (.popMsg (hexText (List.replicate 16 0))) 7 ⟨7, .ofByte 1, none⟩ ++
    steps 0 2 ⟨8, .ofByte 1, none⟩

theorem linearizable_overlapping : ∃ h c b,
    (server .redis).History noReload (boot (QueueMgr.init 1000) fun _ => none) h c ∧
      h.map Seen.answer? = [none, some (SUCCESS, some (hexText (List.replicate 16 0))), none, none,
        some (SUCCESS, some (ascii "a")), some (SUCCESS, none)] ∧
      Linearizable (Mailbox.Answers ⟨ascii "q", noNul_q⟩)
        (.start ⟨ascii "q", noNul_q⟩ (boot (QueueMgr.init 1000) fun _ => none).shared) h b ∧
      b.messages = [] := by
  have hhist := Sys.history_get allows_noReload (server .redis)
    (boot (QueueMgr.init 1000) fun _ => none) overlapping rfl
  obtain ⟨b, hl, hm⟩ := linearizable (boot_boot _ _) wellTyped_empty (noSessions_init 1000) hhist
    ⟨ascii "q", noNul_q⟩
  exact ⟨_, _, b, hhist, rfl, hl, hm.trans rfl⟩

end Domq.Mq
