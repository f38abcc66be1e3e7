import Domq.Mq.Pipeline
import Domq.Mq.System

/-!
# `RedisConnector` when Redis fails

`redisconnector.cpp`, and the calls of one thread on it (`queuemgr.cpp`), for every pattern of what
hiredis returns: a connection that is made or not, a reply or none.

* A `Context` is a `redisContext`: whether `err` is set, and how many appended commands have not
  been answered. `redisFree` drops them, and so does replacing the pointer.
* A `Fault` is what must not happen: `AppendCommand` or `GetReply` on a null pointer (the
  assertions), and `redisGetReply` on a context on which every command has been answered, which
  never returns.
* Other threads change the manager between two sections of this one, so a locked section answers
  with the result it has on some manager.
* `Group` is history: the commands of the last group that the procedure pipelined, and the replies
  it has taken for them. No procedure reads it.

Result: `connector_safe`: no fault is reached in a run in which Redis does not come back inside a
`GetReply` (`Recovers`), calls that start with `AppendCommand` find a context, and wrong replies
come early enough for `_CHECK_REPLY`.
-/

namespace Domq.Mq.Connector

open Domq.Lib Domq.Redis

/-! ## The connector -/

/-- `redisContext`. -/
structure Context where
  err : Bool
  unanswered : Nat

/-- `RedisConnector`: `_redis` and `_connected`. -/
structure RedisConnector where
  redis : Option Context
  connected : Bool

/-- What must not happen. -/
inductive Fault
  /-- `assert(_redis)` -/
  | nullContext
  /-- `redisGetReply` with every command answered -/
  | noReply
  deriving DecidableEq

/-- What hiredis answers in one turn: whether `redisConnectWithTimeout` gives a good context, and
the reply of `redisGetReply` or `redisvCommand`. -/
structure Outcome where
  connect : Bool
  reply : Option Reply

namespace RedisConnector

/-- `Connect`; the context it leaves when it fails has `err` set. -/
def connect (good : Bool) (c : RedisConnector) : Bool × RedisConnector :=
  if good then (true, ⟨some ⟨false, 0⟩, true⟩) else (false, { c with redis := some ⟨true, 0⟩ })

/-- `Close`. -/
def close (_ : RedisConnector) : RedisConnector := ⟨none, false⟩

/-- `Open`, whose result `GetConnector` does not look at. -/
def opened (good : Bool) : RedisConnector := (connect good ⟨none, false⟩).2

/-- `!_connected && Connect() != 0`: whether there is a connection now. -/
def up (good : Bool) (c : RedisConnector) : Bool × RedisConnector :=
  if c.connected then (true, c) else c.connect good

/-- How many commands have not been answered. -/
def unanswered (c : RedisConnector) : Nat := (c.redis.map Context.unanswered).getD 0

/-- `AppendCommand`. -/
def appendCommand (c : RedisConnector) : Except Fault RedisConnector :=
  match c.redis with
  | none => .error .nullContext
  | some ctx => .ok { c with redis := some { ctx with unanswered := ctx.unanswered + 1 } }

/-- The loop of `GetReply`, with what hiredis answers in each of its turns. -/
def getReplyLoop : List Outcome → RedisConnector → Except Fault (Option Reply × RedisConnector)
  | [], c => .ok (none, c)
  | o :: os, c =>
    match c.up o.connect with
    | (false, c) => getReplyLoop os c
    | (true, c) =>
      match c.redis with
      | none => .error .nullContext
      | some ctx =>
        if ctx.unanswered = 0 then .error .noReply
        else
          match o.reply with
          | some r =>
            .ok (some r, { c with redis := some { ctx with unanswered := ctx.unanswered - 1 } })
          | none => getReplyLoop os c.close

/-- `GetReply`; `RETRY` is 2. -/
def getReply (o : Outcome × Outcome) (c : RedisConnector) :
    Except Fault (Option Reply × RedisConnector) :=
  getReplyLoop [o.1, o.2] c

/-- `Command`: one command more, and one reply taken. -/
def command (o : Outcome) (c : RedisConnector) : Option Reply × RedisConnector :=
  match c.up o.connect with
  | (false, c) => (none, c)
  | (true, c) =>
    match o.reply with
    | some r => (some r, c)
    | none => (none, c.close)

end RedisConnector

/-! ## The calls of one thread -/

/-- The calls a thread makes. -/
inductive ThreadCall
  | op (o : Op)
  | ping

/-- `Ping`. -/
def ping : QProg Ret := do
  let _ ← command .ping
  return (0, none)

/-- The procedure of a call. -/
def threadProg : ThreadCall → QProg Ret
  | .op o => callProg o
  | .ping => ping

/-- The last commands a procedure appended without taking a reply in between, and the replies it has
taken since. -/
structure Group where
  cmds : List Cmd
  replies : List Reply

namespace Group

def empty : Group := ⟨[], []⟩

def append (c : Cmd) (g : Group) : Group :=
  if g.replies = [] then ⟨g.cmds ++ [c], []⟩ else ⟨[c], []⟩

def answer (reply : Option Reply) (g : Group) : Group := ⟨g.cmds, g.replies ++ reply.toList⟩

/-- `r` is the first reply to the group that is no integer. -/
def FirstWrong (g : Group) (r : Reply) : Prop :=
  g.replies.length < g.cmds.length ∧ (∀ r' ∈ g.replies, ¬ Wrong r') ∧ Wrong r

end Group

/-- The turns `drainSelf` makes when the replies do not run out. -/
def drainSelfCount (size : Nat) : (fuel i : Nat) → Nat
  | 0, _ => 0
  | fuel + 1, i =>
    if (i : Int) < (Int32.ofInt (size - i - 1)).toInt then drainSelfCount size fuel (i + 1) + 1
    else 0

/-- How many replies `_CHECK_REPLY` reads when the next reply to the group is wrong: in `PushMsg`,
whose group begins with an `RPUSH`, and in `LoadQueues`, for the lengths of the subscribers' lists.
-/
def drainAfter (g : Group) : Nat :=
  match g.cmds with
  | .rpush _ _ :: _ => drained (g.cmds.length / 2)
  | .llen _ :: _ =>
    if g.replies.length + 1 < g.cmds.length then drainSelfCount g.cmds.length g.cmds.length 0 else 0
  | _ => 0

/-- A thread's connector, with the history of its pipeline. -/
structure Line where
  con : RedisConnector
  group : Group

/-- An action of a procedure, with what hiredis answers. -/
inductive Line.Does (o : Outcome × Outcome) (s : Line) :
    (a : Act) → Except Fault (a.Res × Line) → Prop
  | append (c : Cmd) : Does o s (.append c)
      (s.con.appendCommand.map fun con => ((), ⟨con, s.group.append c⟩))
  | getReply : Does o s .getReply
      ((s.con.getReply o).map fun rc => (rc.1, ⟨rc.2, s.group.answer rc.1⟩))
  | command (c : Cmd) : Does o s (.command c)
      (.ok ((s.con.command o.1).1, ⟨(s.con.command o.1).2, Group.empty⟩))
  | time (now : Nat) : Does o s .time (.ok (now, s))
  | locked {sec : Section} {now : Nat} {uuid : Uuid} {m m' : QueueMgr} {r : sec.Res}
      (h : sec.run now uuid m = some (r, m')) : Does o s (.locked sec) (.ok (r, s))

/-- A run is restricted by when calls may start, what sections may answer, and what hiredis may
answer. -/
structure Condition where
  start : ThreadCall → Line → Prop
  enter : Line → (a : Act) → a.Res → Prop
  net : Outcome × Outcome → Line → Act → Prop

/-- No restriction. -/
def Condition.none : Condition := ⟨fun _ _ => True, fun _ _ _ => True, fun _ _ _ => True⟩

/-- A thread in a procedure, or a fault. -/
inductive Config
  | running (s : Line) (p : QProg Ret)
  | fault (f : Fault)

/-- The states of a thread: `GetConnector` opens the connector, and calls follow one another. -/
inductive Reach (C : Condition) : Config → Prop
  | opened (good : Bool) : Reach C (.running ⟨.opened good, .empty⟩ (.ret (0, none)))
  | call {s : Line} {x : Ret} (c : ThreadCall) (h : Reach C (.running s (.ret x)))
      (hs : C.start c s) : Reach C (.running ⟨s.con, .empty⟩ (threadProg c))
  | step {s s' : Line} {a : Act} {k : a.Res → QProg Ret} {r : a.Res} (o : Outcome × Outcome)
      (h : Reach C (.running s (.act a k))) (hn : C.net o s a) (hd : s.Does o a (.ok (r, s')))
      (he : C.enter s a r) : Reach C (.running s' (k r))
  | fault {s : Line} {a : Act} {k : a.Res → QProg Ret} {f : Fault} (o : Outcome × Outcome)
      (h : Reach C (.running s (.act a k))) (hn : C.net o s a) (hd : s.Does o a (.error f)) :
      Reach C (.fault f)

/-- No fault. -/
def Config.Safe : Config → Prop
  | .running _ _ => True
  | .fault _ => False

/-! ## The condition -/

/-- Redis comes back while a `GetReply` waits for it: a reconnect in its loop succeeds. -/
def Recovers (o : Outcome × Outcome) (c : RedisConnector) : Prop :=
  if c.connected then o.1.reply = none ∧ o.2.connect = true
  else o.1.connect = true ∨ o.2.connect = true

/-- A wrong reply comes so late that `_CHECK_REPLY` reads more replies than are to come. -/
def Overdrains (o : Outcome × Outcome) (s : Line) : Prop :=
  ∃ r, o.1.reply = some r ∧ s.group.FirstWrong r ∧ s.con.unanswered < drainAfter s.group + 1

/-- Under this condition the connector is safe. -/
def steady : Condition where
  -- a subscriber's `OpenQueue` starts with `AppendCommand`
  start c s := ∀ a, c = .op (.openQueue a) → a.role = .subscriber → s.con.redis ≠ none
  -- so do `PushMsg` and `PopMsg`, when they have left their locked section for Redis
  enter s a r :=
    match a, r with
    | .locked (.pushLock _), .go _ _ msgType listBuf =>
      msgType = SUB2PUB ∧ listBuf.length = 0 ∨ s.con.redis ≠ none
    | .locked (.popLock _), .go _ _ _ => s.con.redis ≠ none
    | _, _ => True
  net o s a :=
    match a with
    | .getReply => ¬ Recovers o s.con ∧ (s.con.connected = true → ¬ Overdrains o s)
    | _ => True

/-! ## The contract of a procedure -/

/-- A procedure causes no fault as long as the condition is kept. -/
def faultless : Prog.Contract Act Act.Res Line where
  gua s a := ∀ o f, steady.net o s a → ¬ s.Does o a (.error f)
  step s a r s' := ∃ o, steady.net o s a ∧ s.Does o a (.ok (r, s')) ∧ steady.enter s a r

/-- There is a context, and if it is connected at least `d` commands are to be answered. -/
def Ready (s : Line) (d : Nat) : Prop :=
  s.con.redis ≠ none ∧ (s.con.connected = true → d ≤ s.con.unanswered)

/-- Between two calls: a connected connector has a context. -/
def Sound (s : Line) : Prop := s.con.connected = true → s.con.redis ≠ none

theorem Ready.sound {s : Line} {d : Nat} (h : Ready s d) : Sound s := fun _ => h.1

theorem Ready.mono {s : Line} {d d' : Nat} (h : Ready s d) (hd : d' ≤ d) : Ready s d' :=
  ⟨h.1, fun hc => hd.trans (h.2 hc)⟩

/-- Every end of a procedure is as good as any other. -/
abbrev Ends {α : Type} (p : QProg α) (s : Line) : Prop := p.Meets faultless (fun s _ => Sound s) s

section

variable {α : Type} {Q : Line → α → Prop} {s : Line} {d : Nat}

theorem meets_append {c : Cmd} {k : Unit → QProg α} (hs : Ready s d)
    (hk : ∀ s', Ready s' (d + 1) → s'.group = s.group.append c → (k ()).Meets faultless Q s') :
    (append c >>= k).Meets faultless Q s := by
  obtain ⟨ctx, hctx⟩ := Option.ne_none_iff_exists'.mp hs.1
  have happ : s.con.appendCommand =
      .ok { s.con with redis := some { ctx with unanswered := ctx.unanswered + 1 } } := by
    unfold RedisConnector.appendCommand
    rw [hctx]
  refine ⟨?_, ?_⟩
  · intro o f _ hd
    generalize hx : (Except.error f : Except Fault (Unit × Line)) = x at hd
    cases hd
    rw [happ] at hx
    cases hx
  · rintro ⟨⟩ s' ⟨o, -, hd, -⟩
    generalize hx : (Except.ok ((), s') : Except Fault (Unit × Line)) = x at hd
    cases hd
    rw [happ] at hx
    cases hx
    refine hk _ ⟨by simp, fun hc => ?_⟩ rfl
    have hd := hs.2 hc
    unfold RedisConnector.unanswered at hd ⊢
    rw [hctx] at hd
    simp only [Option.map_some, Option.getD_some] at hd ⊢
    omega

/-- What `GetReply` does under the condition. -/
theorem getReply_cases {o : Outcome × Outcome} {c : RedisConnector} (hredis : c.redis ≠ none)
    (hpos : c.connected = true → 0 < c.unanswered) (hn : ¬ Recovers o c) :
    (∃ c', c.getReply o = .ok (none, c') ∧ c'.redis ≠ none ∧ c'.connected = false) ∨
      ∃ r ctx, c.connected = true ∧ o.1.reply = some r ∧ c.redis = some ctx ∧
        c.getReply o =
          .ok (some r, { c with redis := some { ctx with unanswered := ctx.unanswered - 1 } }) := by
  obtain ⟨ctx, hctx⟩ := Option.ne_none_iff_exists'.mp hredis
  unfold Recovers at hn
  unfold RedisConnector.getReply RedisConnector.getReplyLoop RedisConnector.up
  by_cases hc : c.connected = true
  · rw [if_pos hc] at hn
    have hn0 : ctx.unanswered ≠ 0 := by
      have h := hpos hc
      unfold RedisConnector.unanswered at h
      rw [hctx] at h
      exact Nat.pos_iff_ne_zero.mp h
    simp only [if_pos hc, hctx, if_neg hn0]
    cases hr : o.1.reply with
    | some r => exact .inr ⟨r, ctx, hc, rfl, rfl, rfl⟩
    | none =>
      -- the connection is closed, and the second turn cannot open it again
      have ho : o.2.connect = false := by
        by_contra h
        exact hn ⟨hr, by simpa using h⟩
      refine .inl ⟨⟨some ⟨true, 0⟩, false⟩, ?_, by simp, rfl⟩
      simp [RedisConnector.getReplyLoop, RedisConnector.up, RedisConnector.close,
        RedisConnector.connect, ho]
  · rw [if_neg hc, not_or] at hn
    have hf : c.connected = false := by simpa using hc
    have h₁ : o.1.connect = false := by simpa using hn.1
    have h₂ : o.2.connect = false := by simpa using hn.2
    refine .inl ⟨⟨some ⟨true, 0⟩, false⟩, ?_, by simp, rfl⟩
    simp [RedisConnector.getReplyLoop, RedisConnector.up, RedisConnector.connect, hf, h₁, h₂]

theorem meets_getReply {k : Option Reply → QProg α} (hs : Ready s (d + 1))
    (hnone : ∀ s', Ready s' d → s'.con.connected = false → (k none).Meets faultless Q s')
    (hsome : ∀ r s', Ready s' d → s'.group = s.group.answer (some r) →
      (s.group.FirstWrong r → Ready s' (drainAfter s.group)) → (k (some r)).Meets faultless Q s') :
    (getReply >>= k).Meets faultless Q s := by
  have hpos : s.con.connected = true → 0 < s.con.unanswered := fun hc =>
    lt_of_lt_of_le (Nat.zero_lt_succ d) (hs.2 hc)
  refine ⟨?_, ?_⟩
  · intro o f hn hd
    generalize hx : (Except.error f : Except Fault (Option Reply × Line)) = x at hd
    cases hd
    rcases getReply_cases hs.1 hpos hn.1 with ⟨c', hget, -, -⟩ | ⟨r, ctx, -, -, -, hget⟩
    · rw [hget] at hx
      cases hx
    · rw [hget] at hx
      cases hx
  · rintro r s' ⟨o, hn, hd, -⟩
    generalize hx : (Except.ok (r, s') : Except Fault (Option Reply × Line)) = x at hd
    cases hd
    rcases getReply_cases hs.1 hpos hn.1 with
      ⟨c', hget, hredis, hcon⟩ | ⟨r, ctx, hc, ho, hctx, hget⟩
    · rw [hget] at hx
      cases hx
      exact hnone _ ⟨hredis, fun h => by rw [hcon] at h; cases h⟩ hcon
    · rw [hget] at hx
      cases hx
      have hle := hs.2 hc
      have hun : s.con.unanswered = ctx.unanswered := by
        unfold RedisConnector.unanswered
        rw [hctx]
        rfl
      have hun' : RedisConnector.unanswered
          { s.con with redis := some { ctx with unanswered := ctx.unanswered - 1 } } =
            ctx.unanswered - 1 := rfl
      refine hsome r _ ⟨by simp, fun _ => ?_⟩ rfl fun hw => ⟨by simp, fun _ => ?_⟩
      · rw [hun']
        omega
      · rw [hun']
        by_contra hlt
        exact hn.2 hc ⟨r, ho, hw, by omega⟩

theorem meets_command {c : Cmd} {k : Option Reply → QProg α} (hs : Sound s)
    (hnone : ∀ s', Sound s' → (k none).Meets faultless Q s')
    (hsome : ∀ r s', Ready s' 0 → s'.group = Group.empty → (k (some r)).Meets faultless Q s') :
    (command c >>= k).Meets faultless Q s := by
  refine ⟨fun o f _ hd => (by cases hd), ?_⟩
  rintro r s' ⟨o, -, hd, -⟩
  cases hd
  by_cases hc : s.con.connected = true
  · have hup : s.con.up o.1.connect = (true, s.con) := by
      unfold RedisConnector.up
      rw [if_pos hc]
    unfold RedisConnector.command
    rw [hup]
    cases o.1.reply with
    | some r => exact hsome r _ ⟨hs hc, fun _ => Nat.zero_le _⟩ rfl
    | none => exact hnone _ fun h => Bool.noConfusion h
  · have hup : s.con.up o.1.connect = s.con.connect o.1.connect := by
      unfold RedisConnector.up
      rw [if_neg hc]
    unfold RedisConnector.command
    rw [hup]
    unfold RedisConnector.connect
    cases o.1.connect with
    | true =>
      cases o.1.reply with
      | some r => exact hsome r _ ⟨by simp, fun _ => Nat.zero_le _⟩ rfl
      | none => exact hnone _ fun h => Bool.noConfusion h
    | false => exact hnone _ fun h => absurd h hc

theorem meets_time {k : Nat → QProg α} (hk : ∀ now, (k now).Meets faultless Q s) :
    (time >>= k).Meets faultless Q s := by
  refine ⟨fun o f _ hd => (by cases hd), ?_⟩
  rintro now s' ⟨o, -, hd, -⟩
  cases hd
  exact hk now

theorem meets_locked {sec : Section} {k : sec.Res → QProg α}
    (hk : ∀ r, steady.enter s (.locked sec) r → (k r).Meets faultless Q s) :
    (locked sec >>= k).Meets faultless Q s := by
  refine ⟨fun o f _ hd => (by cases hd), ?_⟩
  rintro r s' ⟨o, -, hd, he⟩
  cases hd
  exact hk r he

end

/-! ## The drain loops -/

variable {s : Line}

theorem drain_meets (n : Nat) (hs : Ready s n) :
    (drain n).Meets faultless (fun s' _ => Ready s' 0) s := by
  induction n generalizing s with
  | zero => exact hs
  | succ n ih =>
    unfold drain
    refine meets_getReply hs (fun s' h _ => h.mono (Nat.zero_le _)) fun r s' h _ _ => ih h

theorem drainDec_meets (total i : Nat) (hs : Ready s (drainCount total i)) :
    (drainDec total i).Meets faultless (fun s' _ => Ready s' 0) s := by
  induction total generalizing i s with
  | zero => exact hs
  | succ total ih =>
    unfold drainDec
    rw [drainCount] at hs
    split
    · rename_i hi
      rw [if_pos hi] at hs
      refine meets_getReply hs (fun s' h _ => h.mono (Nat.zero_le _)) fun r s' h _ _ => ih _ h
    · exact hs.mono (Nat.zero_le _)

theorem drainSelf_meets (size fuel i : Nat) (hs : Ready s (drainSelfCount size fuel i)) :
    (drainSelf size fuel i).Meets faultless (fun s' _ => Ready s' 0) s := by
  induction fuel generalizing i s with
  | zero => exact hs
  | succ fuel ih =>
    unfold drainSelf
    rw [drainSelfCount] at hs
    split
    · rename_i hi
      rw [if_pos hi] at hs
      refine meets_getReply hs (fun s' h _ => h.mono (Nat.zero_le _)) fun r s' h _ _ => ih _ h
    · exact hs.mono (Nat.zero_le _)

/-! ## `OpenQueue` -/

theorem createPublisher_ends (a : OpenArgs) (hs : Sound s) : Ends (createPublisher a) s := by
  unfold createPublisher
  refine meets_command hs (fun s₁ h₁ => h₁) fun r s₁ h₁ _ => ?_
  simp only
  split
  · exact h₁.sound
  · split
    · split
      · refine meets_append h₁ fun s₂ h₂ _ => meets_time fun now =>
          meets_append h₂ fun s₃ h₃ _ => ?_
        refine meets_getReply h₃ (fun s₄ h₄ _ => h₄.sound) fun r₄ s₄ h₄ _ _ => ?_
        exact meets_getReply h₄ (fun s₅ h₅ _ => h₅.sound) fun r₅ s₅ h₅ _ _ => h₅.sound
      · exact h₁.sound
    · exact h₁.sound

theorem registerSubscriber_ends (a : OpenArgs) (hs : Sound s) : Ends (registerSubscriber a) s := by
  unfold registerSubscriber
  refine meets_command hs (fun s₁ h₁ => h₁) fun r s₁ h₁ _ => ?_
  simp only
  split
  · exact h₁.sound
  · split
    · exact h₁.sound
    · refine meets_time fun now => meets_command h₁.sound (fun s₂ h₂ => h₂) fun r₂ s₂ h₂ _ => ?_
      split
      · exact h₂.sound
      · exact meets_locked fun _ _ => h₂.sound

theorem createSubscriber_ends (a : OpenArgs) (hs : Ready s 0) : Ends (createSubscriber a) s := by
  unfold createSubscriber
  refine meets_append hs fun s₁ h₁ _ => meets_append h₁ fun s₂ h₂ _ => ?_
  refine meets_getReply h₂ (fun s₃ h₃ _ => h₃.sound) fun r s₃ h₃ _ _ => ?_
  simp only
  split
  · exact Prog.meets_bind.mpr ((drain_meets 1 h₃).mono fun s' _ h => h.sound)
  · split
    · exact meets_getReply h₃ (fun s₄ h₄ _ => h₄.sound) fun r₄ s₄ h₄ _ _ => h₄.sound
    · refine meets_getReply h₃ (fun s₄ h₄ _ => h₄.sound) fun r₄ s₄ h₄ _ _ => ?_
      simp only
      split
      · exact h₄.sound
      · split
        · exact h₄.sound
        · split
          · exact h₄.sound
          · split
            · exact h₄.sound
            · exact registerSubscriber_ends a h₄.sound

theorem openQueue_ends (a : OpenArgs) (hs : Sound s)
    (hsub : a.role = .subscriber → s.con.redis ≠ none) : Ends (openQueue a) s := by
  have hopen : ∀ (ret : Int) (s : Line), Sound s → Ends (do
      if ret = SUCCESS then
        let code ← locked (.openLock a)
        return (ret, some code)
      else return (ret, none)) s := by
    intro ret s hs
    split
    · exact meets_locked fun _ _ => hs
    · exact hs
  unfold openQueue
  cases hrole : a.role with
  | publisher =>
    exact Prog.meets_bind.mpr ((createPublisher_ends a hs).mono fun s' ret h => hopen ret s' h)
  | subscriber =>
    have hready : Ready s 0 := ⟨hsub hrole, fun _ => Nat.zero_le _⟩
    exact Prog.meets_bind.mpr ((createSubscriber_ends a hready).mono fun s' ret h => hopen ret s' h)
  | other => exact hopen 0 s hs

/-! ## `PushMsg` and `PopMsg` -/

/-- Appending pipelines the commands behind the group. -/
theorem appendAll_meets {α : Type} {Q : Line → α → Prop} (cs : List Cmd) {k : Unit → QProg α}
    {d : Nat} (hs : Ready s d) (hg : s.group.replies = [])
    (hk : ∀ s', Ready s' (d + cs.length) → s'.group = ⟨s.group.cmds ++ cs, []⟩ →
      (k ()).Meets faultless Q s') : (appendAll cs >>= k).Meets faultless Q s := by
  induction cs generalizing s d with
  | nil =>
    refine hk s hs ?_
    rw [List.append_nil, ← hg]
  | cons c cs ih =>
    refine meets_append hs fun s' hs' hg' => ?_
    have hgroup : s'.group = ⟨s.group.cmds ++ [c], []⟩ := by
      rw [hg', Group.append, if_pos hg]
    refine ih hs' (by rw [hgroup]) fun s'' hs'' hg'' => hk s'' ?_ ?_
    · rw [List.length_cons, Nat.add_comm cs.length 1, ← Nat.add_assoc]
      exact hs''
    · rw [hg'', hgroup, List.append_assoc]
      rfl

/-- A group of `total` commands with the replies taken so far, none of them wrong, and `left` to
come. -/
def Answering (total : Nat) (g : Group) (left : Nat) : Prop :=
  g.cmds.length = total ∧ g.replies.length + left = total ∧ ∀ r ∈ g.replies, ¬ Wrong r

theorem Answering.firstWrong {total left : Nat} {g : Group} (h : Answering total g (left + 1))
    {r : Reply} (hr : Wrong r) : g.FirstWrong r := by
  obtain ⟨hlen, hleft, hright⟩ := h
  exact ⟨by omega, hright, hr⟩

theorem Answering.next {total left : Nat} {g : Group} (h : Answering total g (left + 1)) {r : Reply}
    (hr : ¬ Wrong r) : Answering total (g.answer (some r)) left := by
  obtain ⟨hlen, hleft, hright⟩ := h
  refine ⟨hlen, ?_, ?_⟩
  · simp only [Group.answer, Option.toList_some, List.length_append, List.length_cons,
      List.length_nil]
    omega
  · intro r' hr'
    simp only [Group.answer, Option.toList_some, List.mem_append, List.mem_singleton] at hr'
    rcases hr' with hr' | rfl
    · exact hright r' hr'
    · exact hr

/-- What `PushMsg` drains after a wrong reply. -/
theorem drainAfter_push {n left : Nat} {g : Group} (hg : Answering (2 * n) g left)
    (hcmds : ∃ key data cs, g.cmds = .rpush key data :: cs) : drainAfter g = drained n := by
  obtain ⟨key, data, cs, hcmds⟩ := hcmds
  have hn : g.cmds.length / 2 = n := by
    rw [hg.1]
    omega
  rw [← hn, drainAfter]
  simp only [hcmds]

theorem failPush_ends {n : Nat} (hn : 0 < n) (ret : Int) (hs : Ready s (drained n)) :
    Ends (failPush ret (2 * n)) s := by
  unfold failPush
  rw [if_pos (by omega)]
  rw [← drainCount_eq n hn] at hs
  exact Prog.meets_bind.mpr ((drainDec_meets _ 0 hs).mono fun s' _ h => h.sound)

theorem pushReplies_ends {n : Nat} (hn : 0 < n) (k : Nat) (hs : Ready s (2 * k))
    (hg : Answering (2 * n) s.group (2 * k))
    (hcmds : ∃ key data cs, s.group.cmds = .rpush key data :: cs) :
    Ends (pushReplies (2 * n) k) s := by
  induction k generalizing s with
  | zero => exact hs.sound
  | succ k ih =>
    unfold pushReplies
    have hs' : Ready s (2 * k + 1 + 1) := hs
    have hg' : Answering (2 * n) s.group (2 * k + 1 + 1) := hg
    refine meets_getReply hs' (fun s₁ h₁ _ => h₁.sound) fun r s₁ h₁ hg₁ hw₁ => ?_
    simp only
    split
    · rename_i hr
      refine failPush_ends hn _ ?_
      rw [← drainAfter_push hg hcmds]
      exact hw₁ (hg'.firstWrong ((checkReply_integer r).mp hr))
    · rename_i hr
      have hp₁ : Answering (2 * n) s₁.group (2 * k + 1) := by
        rw [hg₁]
        exact hg'.next fun h => hr ((checkReply_integer r).mpr h)
      have hc₁ : s₁.group.cmds = s.group.cmds := by rw [hg₁]; rfl
      refine meets_getReply h₁ (fun s₂ h₂ _ => h₂.sound) fun r₂ s₂ h₂ hg₂ hw₂ => ?_
      simp only
      split
      · rename_i hr₂
        refine failPush_ends hn _ ?_
        rw [← drainAfter_push hp₁ (by rw [hc₁]; exact hcmds)]
        exact hw₂ (hp₁.firstWrong ((checkReply_integer r₂).mp hr₂))
      · rename_i hr₂
        refine ih h₂ ?_ ?_
        · rw [hg₂]
          exact hp₁.next fun h => hr₂ ((checkReply_integer r₂).mpr h)
        · rw [hg₂]
          show ∃ key data cs, s₁.group.cmds = _
          rw [hc₁]
          exact hcmds

/-- The commands of a `PushMsg` begin with an `RPUSH`. -/
theorem pushCmds_head {q : CStr} {ty : Int32} {buf : List CStr} (hpos : 0 < turns ty buf)
    (data : Bytes) (now : Nat) :
    ∃ key d cs, pushCmds q ty buf data now = .rpush key d :: cs := by
  unfold pushCmds
  unfold turns at hpos
  split
  · rename_i hty
    rw [if_pos hty] at hpos
    cases buf with
    | nil => exact absurd hpos (by simp)
    | cons c buf => exact ⟨_, _, _, rfl⟩
  · exact ⟨_, _, _, rfl⟩

theorem pushMsg_ends (code data : Bytes) (hs : Sound s) (hg : s.group = Group.empty) :
    Ends (pushMsg code data) s := by
  unfold pushMsg
  refine meets_locked fun res he => ?_
  cases res with
  | fail ret => exact hs
  | limit => exact hs
  | go q c ty buf =>
    simp only
    by_cases hnone : ty = SUB2PUB ∧ buf.length = 0
    · rw [if_pos hnone]
      exact hs
    · rw [if_neg hnone]
      have hredis : s.con.redis ≠ none := he.resolve_left hnone
      have hpos : 0 < turns ty buf := by
        unfold turns
        split
        · rename_i hty
          exact Nat.pos_of_ne_zero fun h => hnone ⟨hty, h⟩
        · exact Nat.one_pos
      refine meets_time fun now => ?_
      refine appendAll_meets _ (d := 0) ⟨hredis, fun _ => Nat.zero_le _⟩ (by rw [hg]; rfl) ?_
      intro s' hs' hg'
      rw [hg] at hg'
      rw [length_pushCmds, Nat.zero_add] at hs'
      refine pushReplies_ends hpos (turns ty buf) hs' ?_ ?_
      · rw [hg']
        exact ⟨length_pushCmds q ty buf data now, Nat.zero_add _, by simp⟩
      · rw [hg']
        exact pushCmds_head hpos data now

theorem popMsg_ends (code : Bytes) (hs : Sound s) : Ends (popMsg code) s := by
  unfold popMsg
  refine meets_locked fun res he => ?_
  cases res with
  | fail ret => exact hs
  | go q c ty =>
    refine meets_time fun now => ?_
    simp only
    have h₀ : Ready s 0 := ⟨he, fun _ => Nat.zero_le _⟩
    refine meets_append h₀ fun s₁ h₁ _ => meets_append h₁ fun s₂ h₂ _ => ?_
    refine meets_getReply h₂ (fun s₃ h₃ _ => h₃.sound) fun r s₃ h₃ _ _ => ?_
    simp only
    split
    · exact Prog.meets_bind.mpr ((drain_meets 1 h₃).mono fun s' _ h => h.sound)
    · refine meets_getReply h₃ (fun s₄ h₄ _ => ?_) fun r₄ s₄ h₄ _ _ => ?_
      · split
        · exact h₄.sound
        · split
          · exact h₄.sound
          · exact h₄.sound
      · split
        · exact h₄.sound
        · split
          · exact h₄.sound
          · exact h₄.sound

/-! ## `LoadQueues` -/

/-- What `LoadQueues` drains after a wrong reply. -/
theorem drainAfter_count {size left : Nat} {g : Group} (hg : Answering size g (left + 1))
    (hcmds : ∀ c ∈ g.cmds, ∃ key, c = .llen key) (hleft : 0 < left) :
    drainAfter g = drainSelfCount size size 0 := by
  obtain ⟨rfl, hlen, -⟩ := hg
  cases hc : g.cmds with
  | nil =>
    rw [hc] at hlen
    exact absurd hlen (by simp)
  | cons c cs =>
    obtain ⟨key, rfl⟩ := hcmds c (by simp [hc])
    rw [drainAfter]
    simp only [hc]
    rw [hc] at hlen
    rw [if_pos (by omega)]

/-- A procedure leaves a context behind. -/
abbrev Keeps {α : Type} (p : QProg α) (s : Line) : Prop :=
  p.Meets faultless (fun s' _ => Ready s' 0) s

theorem loadCounts_keeps {size : Nat} (subs : List SubQueue) (hs : Ready s subs.length)
    (hg : Answering size s.group subs.length) (hcmds : ∀ c ∈ s.group.cmds, ∃ key, c = .llen key) :
    Keeps (loadCounts size subs) s := by
  induction subs generalizing s with
  | nil => exact hs
  | cons sub rest ih =>
    unfold loadCounts
    refine meets_getReply hs (fun s₁ h₁ _ => h₁.mono (Nat.zero_le _)) fun r s₁ h₁ hg₁ hw => ?_
    have h₁' : Ready s₁ 0 := h₁.mono (Nat.zero_le _)
    simp only
    split
    · rename_i hr
      split
      · rename_i hrest
        have hready := hw (hg.firstWrong ((checkReply_integer r).mp hr))
        rw [drainAfter_count hg hcmds hrest] at hready
        exact Prog.meets_bind.mpr ((drainSelf_meets size size 0 hready).mono fun s' _ h => h)
      · exact h₁'
    · rename_i hr
      have hp : Answering size s₁.group rest.length := by
        rw [hg₁]
        exact hg.next fun h => hr ((checkReply_integer r).mpr h)
      have hc₁ : ∀ c ∈ s₁.group.cmds, ∃ key, c = .llen key := by
        rw [hg₁]
        exact hcmds
      refine Prog.meets_bind.mpr ((ih h₁ hp hc₁).mono fun s₂ x h₂ => ?_)
      cases x with
      | error ret => exact h₂
      | ok l => exact h₂

/-- Appending behind a group that has been answered begins a new one. -/
theorem appendAll_meets_fresh {α : Type} {Q : Line → α → Prop} (cs : List Cmd) {k : Unit → QProg α}
    (hs : Ready s 0) (hg : s.group.replies ≠ [])
    (hk : ∀ s', Ready s' cs.length → (cs = [] ∨ s'.group = ⟨cs, []⟩) →
      (k ()).Meets faultless Q s') : (appendAll cs >>= k).Meets faultless Q s := by
  cases cs with
  | nil => exact hk s hs (.inl rfl)
  | cons c cs =>
    refine meets_append hs fun s' hs' hg' => ?_
    have hgroup : s'.group = ⟨[c], []⟩ := by
      rw [hg', Group.append, if_neg hg]
    refine appendAll_meets cs hs' (by rw [hgroup]) fun s'' hs'' hg'' => hk s'' ?_ (.inr ?_)
    · rw [List.length_cons, Nat.add_comm cs.length 1, ← Nat.zero_add 1]
      exact hs''
    · rw [hg'', hgroup]
      rfl

theorem loadSubscribers_keeps (queue : Queue) (hs : Ready s 0) :
    Keeps (loadSubscribers queue) s := by
  unfold loadSubscribers
  refine meets_append hs fun s₁ h₁ _ => ?_
  refine meets_getReply h₁ (fun s₂ h₂ _ => h₂) fun r s₂ h₂ hg₂ _ => ?_
  simp only
  split
  · exact h₂
  · split
    · exact h₂
    · split
      · exact h₂
      · rename_i clients _
        have hne : s₂.group.replies ≠ [] := by
          rw [hg₂]
          simp [Group.answer]
        refine appendAll_meets_fresh _ h₂ hne fun s₃ h₃ hg₃ => ?_
        rw [List.length_map] at h₃
        have hcount : Keeps (loadCounts clients.length clients) s₃ := by
          cases clients with
          | nil => exact h₃
          | cons sub rest =>
            have hgroup := hg₃.resolve_left (by simp)
            refine loadCounts_keeps _ h₃ ?_ ?_
            · rw [hgroup]
              exact ⟨by simp, Nat.zero_add _, by simp⟩
            · rw [hgroup]
              intro c hc
              obtain ⟨sub', -, rfl⟩ := List.mem_map.mp hc
              exact ⟨_, rfl⟩
        refine Prog.meets_bind.mpr (hcount.mono fun s₄ x h₄ => ?_)
        cases x with
        | error ret => exact h₄
        | ok l => exact h₄

theorem loadQueue_keeps (tmp : CStr → Option Queue) (element : Reply) (hs : Ready s 0) :
    Keeps (loadQueue tmp element) s := by
  unfold loadQueue
  simp only
  split
  · exact hs
  · refine meets_append hs fun s₁ h₁ _ => meets_append h₁ fun s₂ h₂ _ => ?_
    refine meets_getReply h₂ (fun s₃ h₃ _ => h₃.mono (Nat.zero_le _)) fun r s₃ h₃ _ _ => ?_
    simp only
    split
    · exact Prog.meets_bind.mpr ((drain_meets 1 h₃).mono fun s' _ h => h)
    · refine meets_getReply h₃ (fun s₄ h₄ _ => h₄) fun r₄ s₄ h₄ _ _ => ?_
      simp only
      split
      · exact h₄
      · split
        · exact h₄
        · split
          · exact loadSubscribers_keeps _ h₄
          · exact h₄

theorem loadLoop_ends (elements : List Reply) (tmp : CStr → Option Queue) (hs : Ready s 0) :
    Ends (loadLoop elements tmp) s := by
  induction elements generalizing s tmp with
  | nil => exact meets_locked fun _ _ => hs.sound
  | cons element rest ih =>
    unfold loadLoop
    refine Prog.meets_bind.mpr ((loadQueue_keeps tmp element hs).mono fun s' x h => ?_)
    cases x with
    | error ret => exact h.sound
    | ok queue => exact ih _ h

theorem loadQueues_ends (hs : Sound s) : Ends loadQueues s := by
  unfold loadQueues
  refine meets_command hs (fun s₁ h₁ => h₁) fun r s₁ h₁ _ => ?_
  simp only
  split
  · exact h₁.sound
  · split
    · exact h₁.sound
    · exact loadLoop_ends _ _ h₁

/-! ## Every run -/

/-- Every call keeps the contract. -/
theorem threadProg_ends (c : ThreadCall) (hs : Sound s) (hg : s.group = Group.empty)
    (hstart : steady.start c s) : Ends (threadProg c) s := by
  cases c with
  | ping => exact meets_command hs (fun s' h => h) fun r s' h _ => h.sound
  | op o =>
    cases o with
    | openQueue a => exact openQueue_ends a hs fun hr => hstart a rfl hr
    | closeQueue code => exact meets_locked fun _ _ => hs
    | pushMsg code data =>
      exact Prog.meets_bind.mpr ((pushMsg_ends code data hs hg).mono fun _ _ h => h)
    | popMsg code => exact popMsg_ends code hs
    | loadQueueMeta => exact Prog.meets_bind.mpr ((loadQueues_ends hs).mono fun _ _ h => h)
    | removeExpireMsgQueueCode e => exact meets_locked fun _ _ => hs

/-- What holds along a run: the rest of the procedure keeps the contract. -/
def Config.Fine : Config → Prop
  | .running s p => Ends p s
  | .fault _ => False

theorem reach_fine {x : Config} (h : Reach steady x) : x.Fine := by
  induction h with
  | opened good =>
    intro hc
    cases good with
    | true => simp [RedisConnector.opened, RedisConnector.connect]
    | false => simp [RedisConnector.opened, RedisConnector.connect]
  | call c _ hs ih => exact threadProg_ends c ih rfl hs
  | step o _ hn hd he ih => exact ih.2 _ _ ⟨o, hn, hd, he⟩
  | fault o _ hn hd ih => exact ih.1 o _ hn hd

/-- **The connector protocol.** In a run in which Redis does not come back while a `GetReply` waits
for it, calls that start with `AppendCommand` find a context, and no wrong reply comes too late for
the drain loops, there is no `AppendCommand` on a null pointer, and `redisGetReply` is called only
while a command is unanswered. -/
theorem connector_safe {x : Config} (h : Reach steady x) : x.Safe := by
  have hfine := reach_fine h
  cases x with
  | running s p => trivial
  | fault f => exact hfine

/-- A `PopMsg` on a connection that is up, before it asks for its first reply. -/
theorem reach_popMsg {C : Condition} (hstart : ∀ s, C.start (.op (.popMsg [1])) s)
    (hnet : ∀ o s a, a ≠ .getReply → C.net o s a)
    (henter : ∀ s a r, s.con.redis ≠ none → C.enter s a r) :
    ∃ (g : Group) (k : Option Reply → QProg Ret), k none = .ret (INTERNAL_ERROR, none) ∧
      Reach C (.running ⟨⟨some ⟨false, 2⟩, true⟩, g⟩ (.act .getReply k)) := by
  have o : Outcome × Outcome := (⟨true, none⟩, ⟨true, none⟩)
  have hopen : Reach C (.running ⟨⟨some ⟨false, 0⟩, true⟩, .empty⟩ (.ret (0, none))) := .opened true
  have hcall := Reach.call (.op (.popMsg [1])) hopen (hstart _)
  have hlock := Reach.step o hcall (hnet _ _ _ (by simp))
    (.locked (show (Section.popLock [1]).run 100 ⟨List.replicate 16 0, rfl⟩ oneSession = some _
      from rfl))
    (henter _ _ _ (by simp))
  have htime := Reach.step o hlock (hnet _ _ _ (by simp)) (.time 100) (henter _ _ _ (by simp))
  have hlpop := Reach.step o htime (hnet _ _ _ (by simp)) (.append _) (henter _ _ _ (by simp))
  have hhset := Reach.step o hlpop (hnet _ _ _ (by simp)) (.append _) (henter _ _ _ (by simp))
  exact ⟨_, _, rfl, hhset⟩

/-- A connection that drops while two commands wait for their replies, and is made again at once:
`redisGetReply` waits on the new context. A `PING` that is not answered, and then a `PopMsg`:
`AppendCommand` finds no context. -/
theorem connector_not_safe : ¬ ((∀ x, Reach Condition.none x → x ≠ .fault .noReply) ∨
    ∀ x, Reach Condition.none x → x ≠ .fault .nullContext) := by
  rintro (h | h)
  · obtain ⟨g, k, -, hpop⟩ := reach_popMsg (C := Condition.none) (fun _ => trivial)
      (fun _ _ _ _ => trivial) (fun _ _ _ _ => trivial)
    exact h _ (.fault (⟨true, none⟩, ⟨true, none⟩) hpop trivial .getReply) rfl
  · have o : Outcome × Outcome := (⟨true, none⟩, ⟨true, none⟩)
    have hopen : Reach Condition.none
        (.running ⟨⟨some ⟨false, 0⟩, true⟩, .empty⟩ (.ret (0, none))) := .opened true
    have hping := Reach.call .ping hopen trivial
    have hfail := Reach.step (⟨true, none⟩, ⟨true, none⟩) hping trivial (.command .ping) trivial
    have hcall := Reach.call (.op (.popMsg [1])) hfail trivial
    have hlock := Reach.step o hcall trivial (.locked (show (Section.popLock [1]).run 100
      ⟨List.replicate 16 0, rfl⟩ oneSession = some _ from rfl)) trivial
    have htime := Reach.step o hlock trivial (.time 100) trivial
    exact h _ (.fault o htime trivial (.append _)) rfl

/-- The connection drops while two commands wait for their replies, and Redis stays away. -/
theorem connector_safe_lost : ∃ s, s.con = ⟨some ⟨true, 0⟩, false⟩ ∧
    Reach steady (.running s (.ret (INTERNAL_ERROR, none))) ∧
    (Config.running s (.ret (INTERNAL_ERROR, none))).Safe := by
  obtain ⟨g, k, hk, hpop⟩ := reach_popMsg (C := steady)
    (fun s a h => by cases h)
    (fun o s a h => by cases a <;> trivial)
    (fun s a r h => by
      simp only [steady]
      split
      · exact .inr h
      · exact h
      · trivial)
  have hlost := Reach.step (⟨true, none⟩, ⟨false, none⟩) hpop
    ⟨by simp [Recovers], fun _ ⟨r, hr, _⟩ => by cases hr⟩ .getReply trivial
  rw [hk] at hlost
  exact ⟨_, rfl, hlost, connector_safe hlost⟩

end Domq.Mq.Connector
