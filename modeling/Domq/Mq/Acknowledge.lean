import Domq.Mq.Talk
import Domq.Mq.Pipeline
import Domq.Mq.Protocol

/-!
# What an acknowledged message means

`PushMsg` against a Redis that may refuse any of its commands. The commands have all gone out before
the first reply is read, so what Redis did is a function of the commands (`Talk.answers`,
`Talk.after`), and what is left is the reply loop.

* `Accepted`: none of the commands got an error, be it refused or sent to a key of another kind.
* `pushReplies_zero_iff`: the reply loop returns `0` exactly when every reply is an integer.
* `pushMsg_truthful`: `PushMsg` returns `0` exactly when its commands were accepted, and then every
  subscriber's list has grown by the message, once for each time the subscriber is in the cache.
-/

namespace Domq.Mq

open Domq.Lib Domq.Redis

/-- Redis, refusing its `n`-th command with the error `refuse n`, on a connection that does not
fail. -/
abbrev redisPeer (refuse : Nat → Option Bytes) : Peer (Nat × Store) := answering (refusing refuse)

/-- None of the commands gets an error. -/
def Accepted (refuse : Nat → Option Bytes) (cs : List Cmd) (s : Nat × Store) : Prop :=
  ∀ e ∈ Talk.answers (redisPeer refuse) cs s, ∀ msg, e.2 ≠ some (.error msg)

/-! ## Redis -/

section Redis

variable {refuse : Nat → Option Bytes}

/-- A command that gets no error was executed. -/
theorem refusing_ok {c : Cmd} {s : Nat × Store} (h : ∀ msg, (refusing refuse c s).1 ≠ .error msg) :
    c.Fits s.2 ∧ refusing refuse c s = ((c.exec s.2).1, s.1 + 1, (c.exec s.2).2) := by
  unfold refusing at h ⊢
  cases hr : refuse s.1 with
  | some msg =>
    rw [hr] at h
    exact absurd rfl (h msg)
  | none =>
    rw [hr] at h
    refine ⟨?_, rfl⟩
    by_contra hf
    have hx : c.exec s.2 = (Cmd.wrongType, s.2) := by
      unfold Cmd.exec
      rw [if_neg (fun hb => hf (Cmd.fitsB_iff.mp hb))]
    have hw : (c.exec s.2).1 = Cmd.wrongType := by rw [hx]
    exact h _ hw

/-- The lists after commands that were accepted. -/
theorem list_after {cs : List Cmd} {s : Nat × Store} (h : Accepted refuse cs s) (k : Bytes) :
    (Talk.after (redisPeer refuse) cs s).2.list k =
      cs.foldl (fun l c => c.onList k l) (s.2.list k) := by
  induction cs generalizing s with
  | nil => rfl
  | cons c cs ih =>
    obtain ⟨hf, hx⟩ : c.Fits s.2 ∧ refusing refuse c s = _ := refusing_ok fun msg he =>
      h _ List.mem_cons_self msg (congrArg some he)
    have hrest := ih (s := (refusing refuse c s).2) fun e he => h e (List.mem_cons_of_mem _ he)
    rw [hx] at hrest
    show (Talk.after (redisPeer refuse) cs (refusing refuse c s).2).2.list k = _
    rw [List.foldl_cons, hx, hrest, Cmd.list_exec hf]

/-- Commands that go where they should are accepted, when they are not refused. -/
theorem accepted_of_wellTyped {cs : List Cmd} {s : Nat × Store}
    (hr : ∀ i < cs.length, refuse (s.1 + i) = none) (hw : WellTyped s.2)
    (hcs : ∀ c ∈ cs, WellKeyed c) : Accepted refuse cs s := by
  induction cs generalizing s with
  | nil =>
    intro e he
    cases he
  | cons c cs ih =>
    have hc := hcs c List.mem_cons_self
    have hx : refusing refuse c s = ((c.exec s.2).1, s.1 + 1, (c.exec s.2).2) := by
      unfold refusing
      rw [show refuse s.1 = none from hr 0 (Nat.succ_pos _)]
    intro e he msg
    rcases List.mem_cons.mp he with rfl | he
    · show some (refusing refuse c s).1 ≠ _
      rw [hx]
      intro h
      exact (Cmd.replyOk_exec (hw.fits hc)).ne_error msg (Option.some.inj h)
    · have hs : (refusing refuse c s).2 = (s.1 + 1, (c.exec s.2).2) := by rw [hx]
      refine ih (s := (refusing refuse c s).2) (fun i hi => ?_) ?_
        (fun c' hc' => hcs c' (List.mem_cons_of_mem c hc')) e he msg
      · rw [hs]
        show refuse (s.1 + 1 + i) = none
        rw [Nat.add_assoc, Nat.add_comm 1 i]
        exact hr (i + 1) (Nat.succ_lt_succ hi)
      · rw [hs]
        exact hw.exec hc

/-- The commands of `PushMsg` get an integer or an error. -/
theorem wrong_iff_error {c : Cmd} {s : Nat × Store}
    (hc : (∃ k d, c = .rpush k d) ∨ ∃ k f v, c = .hset k f v) :
    Wrong (refusing refuse c s).1 ↔ ∃ msg, (refusing refuse c s).1 = .error msg := by
  constructor
  · intro hw
    by_contra hne
    obtain ⟨hf, hx⟩ := refusing_ok fun msg he => hne ⟨msg, he⟩
    have hok := Cmd.replyOk_exec hf
    rw [hx] at hw
    rcases hc with ⟨k, d, rfl⟩ | ⟨k, f, v, rfl⟩
    · obtain ⟨n, hn⟩ := hok
      exact hw (by rw [hn]; rfl)
    · rcases hok with hn | hn
      · exact hw (by rw [hn]; rfl)
      · exact hw (by rw [hn]; rfl)
  · rintro ⟨msg, he⟩
    unfold Wrong
    rw [he]
    simp [Reply.type]

end Redis

/-! ## The reply loop -/

section Replies

variable {π : Type} {P : Peer π} {clock : Nat → Nat} {uuid : Uuid}

/-- After a wrong reply the call fails, if it returns at all. -/
theorem failPush_eval {ret x : Int} {total : Nat} {w w' : Talk π}
    (h : (failPush ret total).eval (Talk.exec P clock uuid) w = some (x, w')) : x = ret := by
  unfold failPush at h
  split at h
  · rw [Prog.eval_bind] at h
    obtain ⟨⟨⟨⟩, w₁⟩, -, he⟩ := Option.bind_eq_some_iff.mp h
    cases he
    rfl
  · cases h
    rfl

theorem pushReplies_readsOnly (total n : Nat) : ReadsOnly (pushReplies total n) := by
  have hdrain : ∀ total i, ReadsOnly (drainDec total i) := by
    intro total
    induction total with
    | zero => exact fun _ => trivial
    | succ total ih =>
      intro i
      rw [drainDec]
      split
      · refine .getReply fun r => ?_
        cases r with
        | none => exact trivial
        | some r => exact ih (i + 1)
      · exact trivial
  have hfail : ∀ ret, ReadsOnly (failPush ret total) := by
    intro ret
    unfold failPush
    split
    · exact (hdrain _ _).bind fun _ => trivial
    · exact trivial
  induction n with
  | zero => exact trivial
  | succ n ih =>
    rw [pushReplies]
    refine .getReply fun r₁ => ?_
    cases r₁ with
    | none => exact trivial
    | some r₁ =>
      simp only
      split
      · exact hfail _
      · refine .getReply fun r₂ => ?_
        cases r₂ with
        | none => exact trivial
        | some r₂ =>
          simp only
          split
          · exact hfail _
          · exact ih

/-- **The reply loop** returns `0` exactly when every reply is an integer, and has then read them
all. -/
theorem pushReplies_zero_iff (total n : Nat) {w w' : Talk π} (hlen : w.unread.length = 2 * n)
    (hsome : ∀ e ∈ w.unread, ∃ r, e.2 = some r) :
    (pushReplies total n).eval (Talk.exec P clock uuid) w = some (0, w') ↔
      (∀ e ∈ w.unread, ∀ r, e.2 = some r → ¬ Wrong r) ∧
        w' = { w with taken := w.taken + 2 * n } := by
  induction n generalizing w with
  | zero =>
    rw [List.length_eq_zero_iff.mp hlen]
    constructor
    · intro h
      cases h
      exact ⟨by simp, rfl⟩
    · rintro ⟨-, rfl⟩
      rfl
  | succ n ih =>
    -- two replies and the rest
    match hu : w.unread with
    | [] =>
      rw [hu] at hlen
      exact absurd hlen (by simp)
    | [_] =>
      rw [hu, List.length_singleton] at hlen
      omega
    | (c₁, o₁) :: (c₂, o₂) :: rest =>
      obtain ⟨r₁, rfl⟩ : ∃ r, o₁ = some r := hsome (c₁, o₁) (by rw [hu]; simp)
      obtain ⟨r₂, rfl⟩ : ∃ r, o₂ = some r := hsome (c₂, o₂) (by rw [hu]; simp)
      have hu₁ := Talk.unread_take hu
      have hu₂ := Talk.unread_take hu₁
      rw [pushReplies, Talk.eval_getReply_unread _ hu]
      by_cases h₁ : Wrong r₁
      · simp only [if_pos ((checkReply_integer _).mpr h₁)]
        constructor
        · intro h
          exact absurd (failPush_eval h).symm ((checkReply_integer _).mpr h₁)
        · rintro ⟨h, -⟩
          exact absurd h₁ (h _ List.mem_cons_self r₁ rfl)
      · simp only [if_neg (fun h => h₁ ((checkReply_integer _).mp h))]
        rw [Talk.eval_getReply_unread _ hu₁]
        by_cases h₂ : Wrong r₂
        · simp only [if_pos ((checkReply_integer _).mpr h₂)]
          constructor
          · intro h
            exact absurd (failPush_eval h).symm ((checkReply_integer _).mpr h₂)
          · rintro ⟨h, -⟩
            exact absurd h₂ (h (c₂, some r₂) (by simp) r₂ rfl)
        · simp only [if_neg (fun h => h₂ ((checkReply_integer _).mp h))]
          rw [ih (by rw [hu₂]; rw [hu] at hlen; simp only [List.length_cons] at hlen; omega)
            (by rw [hu₂]; intro e he; exact hsome e (by rw [hu]; simp [he])), hu₂]
          constructor
          · rintro ⟨h, rfl⟩
            refine ⟨?_, by simp only [Talk.mk.injEq, true_and, and_true]; omega⟩
            intro e he r hr
            rcases List.mem_cons.mp he with rfl | he
            · cases hr
              exact h₁
            · rcases List.mem_cons.mp he with rfl | he
              · cases hr
                exact h₂
              · exact h e he r hr
          · rintro ⟨h, rfl⟩
            exact ⟨fun e he => h e (by simp [he]), by
              simp only [Talk.mk.injEq, true_and, and_true]; omega⟩

end Replies

/-! ## `PushMsg` -/

/-- Every command of `PushMsg` is an `RPUSH` or an `HSET`. -/
theorem pushCmds_cases {q : CStr} {ty : Int32} {buf : List CStr} {data : Bytes} {now : Nat}
    {c : Cmd} (h : c ∈ pushCmds q ty buf data now) :
    (∃ k d, c = .rpush k d) ∨ ∃ k f v, c = .hset k f v := by
  unfold pushCmds at h
  split at h
  · obtain ⟨cl, -, hc⟩ := List.mem_flatMap.mp h
    rcases List.mem_cons.mp hc with rfl | hc
    · exact .inl ⟨_, _, rfl⟩
    · exact .inr ⟨_, _, _, List.mem_singleton.mp hc⟩
  · rcases List.mem_cons.mp h with rfl | h
    · exact .inl ⟨_, _, rfl⟩
    · exact .inr ⟨_, _, _, List.mem_singleton.mp h⟩

/-- The replies to the commands are integers exactly when the commands were accepted. -/
theorem accepted_iff {refuse : Nat → Option Bytes} {cs : List Cmd} {s : Nat × Store}
    (hcs : ∀ c ∈ cs, (∃ k d, c = .rpush k d) ∨ ∃ k f v, c = .hset k f v) :
    Accepted refuse cs s ↔
      ∀ e ∈ Talk.answers (redisPeer refuse) cs s, ∀ r, e.2 = some r → ¬ Wrong r := by
  unfold Accepted
  induction cs generalizing s with
  | nil => simp [Talk.answers]
  | cons c cs ih =>
    have hw : Wrong (refusing refuse c s).1 ↔ _ := wrong_iff_error (hcs c List.mem_cons_self)
    have hrest := ih (s := (refusing refuse c s).2) fun c' hc' =>
      hcs c' (List.mem_cons_of_mem c hc')
    have hfirst : (∀ msg, some (refusing refuse c s).1 ≠ some (.error msg)) ↔
        ∀ r, some (refusing refuse c s).1 = some r → ¬ Wrong r := by
      constructor
      · rintro h r ⟨⟩ hwrong
        obtain ⟨msg, he⟩ := hw.mp hwrong
        exact h msg (congrArg some he)
      · intro h msg he
        exact h _ rfl (hw.mpr ⟨msg, Option.some.inj he⟩)
    show (∀ e ∈ (c, some (refusing refuse c s).1) :: _, _) ↔ ∀ e ∈ (c, some _) :: _, _
    rw [List.forall_mem_cons, List.forall_mem_cons]
    exact and_congr hfirst hrest

/-- What the commands of `PushMsg` make of a list: the message is appended once for every subscriber
whose list it is. -/
theorem foldl_pushCmds_sub (q : CStr) (buf : List CStr) (data : Bytes) (now : Nat) (k : Bytes)
    (l : List Bytes) :
    (pushCmds q SUB2PUB buf data now).foldl (fun l c => c.onList k l) l =
      l ++ List.replicate (buf.countP fun c => getQueueSubName q.bytes c.bytes = k) data := by
  show (buf.flatMap _).foldl _ l = _
  induction buf generalizing l with
  | nil => simp
  | cons c buf ih =>
    rw [List.flatMap_cons, List.foldl_append, ih, List.countP_cons]
    by_cases hk : getQueueSubName q.bytes c.bytes = k
    · simp only [List.foldl_cons, List.foldl_nil, Cmd.onList, hk, decide_true, if_true]
      rw [List.append_assoc, List.singleton_append, List.replicate_succ]
    · simp only [List.foldl_cons, List.foldl_nil, Cmd.onList, hk, decide_false, if_false]
      simp

theorem foldl_pushCmds_msg {ty : Int32} (hty : ty ≠ SUB2PUB) (q : CStr) (buf : List CStr)
    (data : Bytes) (now : Nat) (k : Bytes) (l : List Bytes) :
    (pushCmds q ty buf data now).foldl (fun l c => c.onList k l) l =
      if getQueueMsgName q.bytes = k then l ++ [data] else l := by
  unfold pushCmds
  rw [if_neg hty]
  rfl

theorem countP_subName (q c : CStr) (buf : List CStr) :
    (buf.countP fun c' => getQueueSubName q.bytes c'.bytes = getQueueSubName q.bytes c.bytes) =
      buf.count c := by
  unfold List.count
  congr 1
  funext c'
  by_cases hc : c' = c
  · simp [hc]
  · have hne : getQueueSubName q.bytes c'.bytes ≠ getQueueSubName q.bytes c.bytes :=
      fun h => hc (CStr.bytes_injective (getQueueSubName_injective _ h))
    simp [hc, hne]

/-- The messages are where they should be: `data` is appended to the list of every client in `buf`
as often as the client is there, or once to the list of the queue, and nothing else changes. -/
def Delivered (q : CStr) (ty : Int32) (buf : List CStr) (data : Bytes) (st st' : Store) : Prop :=
  if ty = SUB2PUB then
    (∀ c : CStr, st'.list (getQueueSubName q.bytes c.bytes) =
      st.list (getQueueSubName q.bytes c.bytes) ++ List.replicate (buf.count c) data) ∧
    ∀ k, (∀ c ∈ buf, k ≠ getQueueSubName q.bytes c.bytes) → st'.list k = st.list k
  else
    st'.list (getQueueMsgName q.bytes) = st.list (getQueueMsgName q.bytes) ++ [data] ∧
    ∀ k, k ≠ getQueueMsgName q.bytes → st'.list k = st.list k

theorem delivered_of_accepted {refuse : Nat → Option Bytes} {q : CStr} {ty : Int32}
    {buf : List CStr} {data : Bytes} {now : Nat} {s : Nat × Store}
    (h : Accepted refuse (pushCmds q ty buf data now) s) :
    Delivered q ty buf data s.2
      (Talk.after (redisPeer refuse) (pushCmds q ty buf data now) s).2 := by
  have hl := list_after h
  unfold Delivered
  split
  · rename_i hty
    subst hty
    refine ⟨fun c => ?_, fun k hk => ?_⟩
    · rw [hl, foldl_pushCmds_sub, countP_subName]
    · have hzero : (buf.countP fun c => getQueueSubName q.bytes c.bytes = k) = 0 := by
        rw [List.countP_eq_zero]
        intro c hc
        simpa using (hk c hc).symm
      rw [hl, foldl_pushCmds_sub, hzero, List.replicate_zero, List.append_nil]
  · rename_i hty
    refine ⟨?_, fun k hk => ?_⟩
    · rw [hl, foldl_pushCmds_msg hty, if_pos rfl]
    · rw [hl, foldl_pushCmds_msg hty, if_neg (Ne.symm hk)]

section Push

variable {refuse : Nat → Option Bytes} {clock : Nat → Nat} {uuid : Uuid} {m : QueueMgr} {st : Store}
  {code data : Bytes} {item : CodeItem} {queue : Queue}

theorem pushLock_go (now : Nat) (hi : m.msgQueueCode2QueueName code = some item)
    (hq : m.name2Queue item.queueName = some queue) (hf : ¬ QueueMgr.full queue) :
    m.pushLock now code = (.go item.queueName item.clientName queue.option.msgType
      (queue.clients.map SubQueue.client), m.touch now code item queue) := by
  rcases m.pushLock_cases now code with ⟨ret, -, -, hnone⟩ | ⟨item', queue', hi', hq', hl⟩
  · rw [hnone item hi] at hq
    cases hq
  · cases hi.symm.trans hi'
    cases hq.symm.trans hq'
    rw [if_neg hf] at hl
    exact hl

/-- `PushMsg` on a queue that is cached and not full: its commands go out, and then the reply loop
runs. -/
theorem eval_pushMsg_go {π : Type} (P : Peer π) (clock : Nat → Nat) (uuid : Uuid) (s : π)
    (hi : m.msgQueueCode2QueueName code = some item)
    (hq : m.name2Queue item.queueName = some queue) (hf : ¬ QueueMgr.full queue) {cs : List Cmd}
    {n : Nat} (hcs : cs = pushCmds item.queueName queue.option.msgType
      (queue.clients.map SubQueue.client) data (clock 1))
    (hn : n = turns queue.option.msgType (queue.clients.map SubQueue.client)) :
    ∃ ticks, (pushMsg code data).eval (Talk.exec P clock uuid) (.idle m s) =
      (pushReplies (2 * n) n).eval (Talk.exec P clock uuid)
        ⟨m.touch (clock 0) code item queue, Talk.after P cs s, Talk.answers P cs s, 0, ticks⟩ := by
  have hl : Section.run (clock 0) uuid m (.pushLock code) = some _ :=
    congrArg some (pushLock_go (clock 0) hi hq hf)
  unfold pushMsg
  rw [Talk.eval_locked _ hl]
  by_cases hnone : queue.option.msgType = SUB2PUB ∧ (queue.clients.map SubQueue.client).length = 0
  · simp only [if_pos hnone]
    have hnil := List.length_eq_zero_iff.mp hnone.2
    have hcs' : cs = [] := by
      rw [hcs, hnone.1, hnil]
      rfl
    have hn' : n = 0 := by
      rw [hn, turns, if_pos hnone.1, hnone.2]
    subst hcs' hn'
    exact ⟨1, rfl⟩
  · simp only [if_neg hnone]
    refine ⟨2, ?_⟩
    rw [Talk.eval_time]
    subst hcs hn
    exact Talk.eval_appendAll _ _ _

/-- **`PushMsg` acknowledges truthfully.** On a queue that is cached and not full its commands are
those of `pushCmds`. It returns `0` exactly when none of them was refused, and then the message is
where it should be. -/
theorem pushMsg_truthful (refuse : Nat → Option Bytes) (clock : Nat → Nat) (uuid : Uuid)
    (m : QueueMgr) (st : Store) (code data : Bytes) (item : CodeItem) (queue : Queue)
    (hi : m.msgQueueCode2QueueName code = some item)
    (hq : m.name2Queue item.queueName = some queue) (hf : ¬ QueueMgr.full queue) :
    let run := (pushMsg code data).eval (Talk.exec (redisPeer refuse) clock uuid) (.idle m (0, st))
    let clients := queue.clients.map SubQueue.client
    let cmds := pushCmds item.queueName queue.option.msgType clients data (clock 1)
    (∀ ret w, run = some (ret, w) → w.log = Talk.answers (redisPeer refuse) cmds (0, st)) ∧
    ((∃ w, run = some (0, w)) ↔ Accepted refuse cmds (0, st)) ∧
    ∀ w, run = some (0, w) →
      Delivered item.queueName queue.option.msgType clients data st w.peer.2 := by
  intro run clients cmds
  obtain ⟨ticks, he⟩ := eval_pushMsg_go (redisPeer refuse) clock uuid (0, st) hi hq hf
    (show cmds = _ from rfl) rfl
  have hzero : ∀ w, run = some (0, w) ↔
      (∀ e ∈ Talk.answers (redisPeer refuse) cmds (0, st), ∀ r, e.2 = some r → ¬ Wrong r) ∧
        w = ⟨m.touch (clock 0) code item queue, Talk.after (redisPeer refuse) cmds (0, st),
          Talk.answers (redisPeer refuse) cmds (0, st),
          0 + 2 * turns queue.option.msgType clients, ticks⟩ := by
    intro w
    refine Iff.trans (iff_of_eq (congrArg (· = some (0, w)) he)) ?_
    refine pushReplies_zero_iff _ _ ?_ Talk.answers_some
    show (Talk.answers _ cmds _).length = _
    rw [Talk.length_answers, length_pushCmds]
  have hacc : Accepted refuse cmds (0, st) ↔ _ := accepted_iff fun c hc => pushCmds_cases hc
  refine ⟨fun ret w h => ?_, ?_, fun w h => ?_⟩
  · exact ((pushReplies_readsOnly _ _).eval (he.symm.trans h)).2.2
  · constructor
    · rintro ⟨w, h⟩
      exact hacc.mpr ((hzero w).mp h).1
    · intro h
      exact ⟨_, (hzero _).mpr ⟨hacc.mp h, rfl⟩⟩
  · obtain ⟨hgood, rfl⟩ := (hzero w).mp h
    exact delivered_of_accepted (hacc.mpr hgood)

end Push

theorem noNul_a : ∀ b ∈ ascii "a", b ≠ 0 := by decide

theorem noNul_b : ∀ b ∈ ascii "b", b ≠ 0 := by decide

/-- A manager with one session, `[1]`, on a queue that `b` subscribed once and `a` twice. -/
def threeSubscribers : QueueMgr :=
  { oneSession with
    name2Queue := fun _ => some
      { option := ⟨ascii "q", SUB2PUB, 0, 0⟩
        msgCount := 0
        lastVisit := 0
        clients := [⟨⟨ascii "a", noNul_a⟩, 0, 0⟩, ⟨⟨ascii "b", noNul_b⟩, 0, 0⟩,
          ⟨⟨ascii "a", noNul_a⟩, 0, 0⟩] } }

/-- The message is in the list of `a` twice. -/
theorem pushMsg_truthful_twice : ∃ w,
    (pushMsg [1] (ascii "hello")).eval
      (Talk.exec (redisPeer fun _ => none) (fun _ => 100) (Uuid.ofByte 0))
      (.idle threeSubscribers (0, fun _ => none)) = some (0, w) ∧
    w.peer.2.list (getQueueSubName (ascii "q") (ascii "a")) = [ascii "hello", ascii "hello"] := by
  have h := pushMsg_truthful (fun _ => none) (fun _ => 100) (Uuid.ofByte 0) threeSubscribers
    (fun _ => none) [1] (ascii "hello") _ _ rfl rfl (by decide)
  obtain ⟨w, hw⟩ := h.2.1.mpr (accepted_of_wellTyped (fun _ _ => rfl) wellTyped_empty
    fun c hc => wellKeyed_of_mem_pushCmds hc)
  exact ⟨w, hw, (h.2.2 w hw).1 ⟨ascii "a", noNul_a⟩⟩

end Domq.Mq
