import Domq.Lib.Machine
import Domq.Mq.Direct
import Domq.Mq.LoadRedis
import Domq.Mq.Pop

/-!
# The server, one call after the other

A run in which no two calls overlap: a call starts when the one before it has returned, on any
thread. The state is the manager, the store, what each thread's connection still has to be read, and
a record of every call; a call in which Redis is asked to answer more than it was sent never
returns, and is no step.

* An event is a call with what the outside contributes: the clock, the uuid, and which of the call's
  commands Redis refuses, the `i`-th with the error `refuse i`. A refused command has no effect.
* `Performs S T`: a procedure that sends commands in `S` and enters sections in `T`, whatever the
  replies are. What these keep, it keeps (`Performs.eval`).
* `Tame`: a command that neither adds a name nor writes a queue's metadata, but for its last visit.
  All calls but a publisher's `OpenQueue` are tame (`pushMsg_performs` and the like), and a tame
  command keeps a store `Sane`.
* `createPublisher_cases`: what a publisher's `OpenQueue` can do in Redis.
-/

namespace Domq.Mq

open Domq.Lib Domq.Redis

/-! ## The machine -/

/-- A call that has returned. -/
structure Done where
  op : Op
  ret : Ret
  /-- the manager before the call -/
  mgr : QueueMgr
  /-- the store before the call -/
  before : Store
  /-- the store after the call -/
  after : Store

/-- The server between two calls. -/
structure Server where
  mgr : QueueMgr
  redis : Store
  /-- the replies a thread's connection has not read -/
  unread : Tid → List Answer
  log : List Done

/-- A call, with the clock, the uuid and the refusals of Redis. -/
structure Invocation where
  t : Tid
  op : Op
  clock : Nat → Nat
  uuid : Uuid
  refuse : Nat → Option Bytes

namespace Server

/-- No call has been made. -/
def boot (m : QueueMgr) (redis : Store) : Server := ⟨m, redis, fun _ => [], []⟩

/-- The thread that makes the call, before it. -/
def talk (s : Server) (e : Invocation) : Talk (Nat × Store) :=
  ⟨s.mgr, (0, s.redis), s.unread e.t, 0, 0⟩

/-- The server when the call has returned. -/
def returned (s : Server) (e : Invocation) (x : Ret) (w : Talk (Nat × Store)) : Server :=
  { mgr := w.mgr
    redis := w.peer.2
    unread := Function.update s.unread e.t w.unread
    log := s.log ++ [⟨e.op, x, s.mgr, s.redis, w.peer.2⟩] }

/-- One call. -/
def step (s : Server) (e : Invocation) : Option Server :=
  ((callProg e.op).eval (Talk.exec (redisPeer e.refuse) e.clock e.uuid) (s.talk e)).map
    fun xw => s.returned e xw.1 xw.2

theorem step_eq {s s' : Server} {e : Invocation} (h : s.step e = some s') :
    ∃ x w, (callProg e.op).eval (Talk.exec (redisPeer e.refuse) e.clock e.uuid) (s.talk e) =
      some (x, w) ∧ s' = s.returned e x w := by
  obtain ⟨⟨x, w⟩, he, hs⟩ := Option.map_eq_some_iff.mp h
  exact ⟨x, w, he, hs.symm⟩

end Server

/-- Redis refuses nothing. -/
def Unrefused (e : Invocation) : Prop := e.refuse = fun _ => none

/-- A call on a connection without unread replies, when Redis refuses nothing. -/
theorem Server.step_quiet {s s' : Server} {e : Invocation} (hr : Unrefused e)
    (hu : ∀ t, s.unread t = []) (h : s.step e = some s') :
    ∃ x w, (callProg e.op).eval (Talk.exec quiet e.clock e.uuid) (.idle s.mgr (0, s.redis)) =
      some (x, w) ∧ s' = s.returned e x w ∧ (w.Idle → ∀ t, s'.unread t = []) := by
  obtain ⟨x, w, he, rfl⟩ := Server.step_eq h
  have htalk : s.talk e = .idle s.mgr (0, s.redis) := by
    unfold Server.talk
    rw [hu]
    rfl
  rw [hr, htalk] at he
  refine ⟨x, w, he, rfl, fun hw t => ?_⟩
  show Function.update s.unread e.t w.unread t = []
  rw [hw.unread_eq]
  by_cases ht : t = e.t
  · rw [ht, Function.update_self]
  · rw [Function.update_of_ne ht]
    exact hu t

/-! ## What a procedure does -/

/-- The contract of a procedure that sends commands in `S` and enters sections in `T`. -/
def doing (S : Cmd → Prop) (T : Section → Prop) : Prog.Contract Act Act.Res Unit where
  gua _ a :=
    match a with
    | .append c | .command c => S c
    | .locked s => T s
    | .getReply | .time => True
  step _ _ _ _ := True

/-- The procedure sends commands in `S` and enters sections in `T`. -/
def Performs (S : Cmd → Prop) (T : Section → Prop) {α : Type} (p : QProg α) : Prop :=
  p.Meets (doing S T) (fun _ _ => True) ()

section Performs

variable {S : Cmd → Prop} {T : Section → Prop} {α β : Type}

theorem Performs.append {c : Cmd} {k : Unit → QProg α} (hc : S c) (hk : Performs S T (k ())) :
    Performs S T (append c >>= k) := ⟨hc, fun _ _ _ => hk⟩

theorem Performs.command {c : Cmd} {k : Option Reply → QProg α} (hc : S c)
    (hk : ∀ r, Performs S T (k r)) : Performs S T (command c >>= k) := ⟨hc, fun r _ _ => hk r⟩

theorem Performs.getReply {k : Option Reply → QProg α} (hk : ∀ r, Performs S T (k r)) :
    Performs S T (getReply >>= k) := ⟨trivial, fun r _ _ => hk r⟩

theorem Performs.time {k : Nat → QProg α} (hk : ∀ now, Performs S T (k now)) :
    Performs S T (time >>= k) := ⟨trivial, fun now _ _ => hk now⟩

theorem Performs.locked {s : Section} {k : s.Res → QProg α} (hs : T s)
    (hk : ∀ r, Performs S T (k r)) : Performs S T (locked s >>= k) := ⟨hs, fun r _ _ => hk r⟩

theorem Performs.bind {p : QProg α} {k : α → QProg β} (hp : Performs S T p)
    (hk : ∀ x, Performs S T (k x)) : Performs S T (p >>= k) :=
  Prog.meets_bind.mpr (hp.mono fun _ x _ => hk x)

theorem Performs.mono {S' : Cmd → Prop} (hS : ∀ c, S c → S' c) {p : QProg α}
    (hp : Performs S T p) : Performs S' T p := by
  induction p with
  | ret x => exact trivial
  | act a k ih =>
    refine ⟨?_, fun r _ _ => ih r (hp.2 r () trivial)⟩
    cases a with
    | append c => exact hS c hp.1
    | command c => exact hS c hp.1
    | _ => exact hp.1

theorem ReadsOnly.performs {p : QProg α} (hp : ReadsOnly p) : Performs S T p := by
  induction p with
  | ret x => exact trivial
  | act a k ih =>
    obtain ⟨ha, hk⟩ := hp
    cases ha
    exact ⟨trivial, fun r _ _ => ih r (hk r () trivial)⟩

theorem Performs.appendAll {cs : List Cmd} {k : Unit → QProg α} (hcs : ∀ c ∈ cs, S c)
    (hk : Performs S T (k ())) : Performs S T (appendAll cs >>= k) := by
  induction cs with
  | nil => exact hk
  | cons c cs ih =>
    exact .append (hcs c List.mem_cons_self) (ih fun c' hc' => hcs c' (List.mem_cons_of_mem c hc'))

/-- **What its commands and sections keep, a procedure keeps**, whatever is refused. -/
theorem Performs.eval {p : QProg α} (hp : Performs S T p) {I : Store → QueueMgr → Prop}
    (hS : ∀ {c st m}, S c → I st m → I (c.exec st).2 m)
    (hT : ∀ {s now uuid st m r m'}, T s → I st m → s.run now uuid m = some (r, m') → I st m')
    {refuse : Nat → Option Bytes} {clock : Nat → Nat} {uuid : Uuid} {w w' : Talk (Nat × Store)}
    {x : α} (h : p.eval (Talk.exec (redisPeer refuse) clock uuid) w = some (x, w'))
    (hw : I w.peer.2 w.mgr) : I w'.peer.2 w'.mgr := by
  have hissue : ∀ {c} {w : Talk (Nat × Store)}, S c → I w.peer.2 w.mgr →
      I (w.issue (redisPeer refuse) c).peer.2 w.mgr := by
    intro c w hc hw
    show I (refusing refuse c w.peer).2.2 w.mgr
    unfold refusing
    split
    · exact hw
    · exact hS hc hw
  obtain ⟨-, -, hw'⟩ := Prog.Meets.eval (K := fun _ (w : Talk (Nat × Store)) => I w.peer.2 w.mgr)
    (by
      intro g w a r w₁ hw hg he
      refine ⟨(), trivial, ?_⟩
      cases a with
      | append c =>
        cases he
        exact hissue hg hw
      | getReply =>
        obtain ⟨cr, -, hcr⟩ := Option.map_eq_some_iff.mp he
        cases hcr
        exact hw
      | command c =>
        obtain ⟨cr, -, hcr⟩ := Option.map_eq_some_iff.mp he
        cases hcr
        exact hissue hg hw
      | time =>
        cases he
        exact hw
      | locked s =>
        obtain ⟨rm, hrun, hrm⟩ := Option.map_eq_some_iff.mp he
        cases hrm
        exact hT hg hw hrun) hp hw h
  exact hw'

end Performs

/-! ## Tame commands -/

/-- The commands of all calls but a publisher's `OpenQueue`. -/
inductive Tame : Cmd → Prop
  | sismember (n : Bytes) : Tame (.sismember allQueueName n)
  | hgetall (q : Bytes) : Tame (.hgetall (getQueueMetaName q))
  | hexists (q f : Bytes) : Tame (.hexists (getSubQueueMetaName q) f)
  | subscribe (q : Bytes) (fvs : List (Bytes × Bytes)) : Tame (.hmset (getSubQueueMetaName q) fvs)
  | visitSub (q f v : Bytes) : Tame (.hset (getSubQueueMetaName q) f v)
  | visit (q v : Bytes) : Tame (.hset (getQueueMetaName q) (ascii "lastvisit") v)
  | rpush {k : Bytes} (hk : kindOf k = some .list) (d : Bytes) : Tame (.rpush k d)
  | lpop {k : Bytes} (hk : kindOf k = some .list) : Tame (.lpop k)

namespace Tame

variable {c : Cmd} {st : Store}

theorem wellKeyed (h : Tame c) : WellKeyed c := by
  cases h with
  | rpush hk d =>
    rintro k κ ⟨⟩
    exact hk
  | lpop hk =>
    rintro k κ ⟨⟩
    exact hk
  | _ =>
    rintro k κ ⟨⟩
    rfl

theorem members (h : Tame c) (hf : c.Fits st) (k : Bytes) :
    (c.exec st).2.members k = st.members k := by
  rw [Cmd.members_exec hf]
  cases h <;> rfl

/-- A tame command keeps a queue's metadata but for the last visit. -/
theorem hash (h : Tame c) (hf : c.Fits st) (q : Bytes) :
    (c.exec st).2.hash (getQueueMetaName q) = st.hash (getQueueMetaName q) ∨
    ∃ v, (c.exec st).2.hash (getQueueMetaName q) =
      hset (st.hash (getQueueMetaName q)) (ascii "lastvisit") v := by
  rw [Cmd.hash_exec hf]
  cases h with
  | subscribe q' fvs =>
    rw [Cmd.onHash, if_neg (getQueueMetaName_ne_sub q q').symm]
    exact .inl rfl
  | visitSub q' f v =>
    rw [Cmd.onHash, if_neg (getQueueMetaName_ne_sub q q').symm]
    exact .inl rfl
  | visit q' v =>
    by_cases hq : getQueueMetaName q' = getQueueMetaName q
    · exact .inr ⟨v, if_pos hq⟩
    · exact .inl (if_neg hq)
  | _ => exact .inl rfl

end Tame

theorem MetaHash.hset {h : List (Bytes × Bytes)} (hm : MetaHash h) {f : Bytes} (hf : f ∈ metaNames)
    (v : Bytes) : MetaHash (hset h f v) := by
  refine ⟨nodup_fields_hset f v hm.nodup, fun g hg => ?_⟩
  rcases mem_fields_hset.mp hg with hg | rfl
  · exact hm.names g hg
  · exact hf

theorem Complete.hset {h : List (Bytes × Bytes)} (hc : Complete h) (f v : Bytes) :
    Complete (hset h f v) := fun g hg => mem_fields_hset.mpr (.inl (hc g hg))

/-- **A tame command keeps the store sane.** -/
theorem Sane.exec {st : Store} {c : Cmd} (h : Sane st) (hc : Tame c) : Sane (c.exec st).2 := by
  have hf := h.typed.fits hc.wellKeyed
  have hmem := hc.members hf allQueueName
  refine ⟨h.typed.exec hc.wellKeyed, by rw [hmem]; exact h.nodup, by rw [hmem]; exact h.names,
    fun q => ?_, fun q hq => ?_⟩
  · rcases hc.hash hf q.bytes with heq | ⟨v, heq⟩
    · rw [heq]
      exact h.hashes q
    · rw [heq]
      exact (h.hashes q).hset (by decide) v
  · rw [hmem] at hq
    rcases hc.hash hf q.bytes with heq | ⟨v, heq⟩
    · rw [heq]
      exact h.complete q hq
    · rw [heq]
      exact (h.complete q hq).hset _ v

/-! ## The calls -/

section Calls

variable {T : Section → Prop}

/-- The commands of `PushMsg` are tame. -/
theorem tame_pushCmds {q : CStr} {ty : Int32} {buf : List CStr} {data : Bytes} {now : Nat} {c : Cmd}
    (h : c ∈ pushCmds q ty buf data now) : Tame c := by
  unfold pushCmds at h
  split at h
  · obtain ⟨cl, -, hc⟩ := List.mem_flatMap.mp h
    rcases List.mem_pair.mp hc with rfl | rfl
    · exact .rpush (kindOf_getQueueSubName _ _) data
    · exact .visitSub _ _ _
  · rcases List.mem_pair.mp h with rfl | rfl
    · exact .rpush (kindOf_getQueueMsgName _) data
    · exact .visit _ _

theorem pushMsg_performs {code data : Bytes} (hT : T (.pushLock code)) :
    Performs Tame T (pushMsg code data) := by
  refine .locked hT fun r => ?_
  cases r with
  | fail ret => exact trivial
  | limit => exact trivial
  | go q c ty buf =>
    simp only
    split
    · exact trivial
    · exact .time fun now => .appendAll (fun c hc => tame_pushCmds hc)
        (pushReplies_readsOnly _ _).performs

/-- The commands of `PopMsg`. -/
inductive Popping : Cmd → Prop
  | lpop {k : Bytes} (hk : kindOf k = some .list) : Popping (.lpop k)
  | visitSub (q f v : Bytes) : Popping (.hset (getSubQueueMetaName q) f v)
  | visit (q v : Bytes) : Popping (.hset (getQueueMetaName q) (ascii "lastvisit") v)

theorem Popping.tame {c : Cmd} (h : Popping c) : Tame c := by
  cases h with
  | lpop hk => exact .lpop hk
  | visitSub q f v => exact .visitSub q f v
  | visit q v => exact .visit q v

theorem popping_popKeys (q c : CStr) (ty : Int32) (v : Bytes) :
    Popping (.lpop (popKeys q c ty).2.1) ∧
      Popping (.hset (popKeys q c ty).1 (popKeys q c ty).2.2 v) := by
  unfold popKeys
  split
  · exact ⟨.lpop (kindOf_getQueueSubName _ _), .visitSub _ _ _⟩
  · exact ⟨.lpop (kindOf_getQueueMsgName _), .visit _ _⟩

theorem popMsg_performs {code : Bytes} (hT : T (.popLock code)) :
    Performs Popping T (popMsg code) := by
  refine .locked hT fun r => ?_
  cases r with
  | fail ret => exact trivial
  | go q c ty =>
    refine .time fun now => ?_
    obtain ⟨hpop, hvisit⟩ := popping_popKeys q c ty (fmtInt (Int32.ofNat now).toInt)
    -- both replies are read, if at all
    refine .append hpop (.append hvisit (ReadsOnly.performs (.getReply fun r => ?_)))
    cases r with
    | none => exact trivial
    | some reply =>
      simp only
      split
      · rw [drain_one]
        exact .getReply fun _ => trivial
      · refine .getReply fun r => ?_
        split
        · exact trivial
        · split
          · exact trivial
          · exact trivial

theorem registerSubscriber_performs {a : OpenArgs}
    (hT : T (.addClient a.msgQueueName a.clientName)) :
    Performs Tame T (registerSubscriber a) := by
  refine .command (.hexists _ _) fun r => ?_
  simp only
  split
  · exact trivial
  · split
    · exact trivial
    · refine .time fun now => .command (.subscribe _ _) fun r => ?_
      split
      · exact trivial
      · exact .locked hT fun _ => trivial

theorem createSubscriber_performs {a : OpenArgs}
    (hT : T (.addClient a.msgQueueName a.clientName)) :
    Performs Tame T (createSubscriber a) := by
  refine .append (.sismember _) (.append (.hgetall _) (.getReply fun r₁ => ?_))
  cases r₁ with
  | none => exact trivial
  | some r₁ =>
    simp only
    split
    · rw [drain_one]
      exact .getReply fun _ => trivial
    · split
      · exact .getReply fun _ => trivial
      · refine .getReply fun r₂ => ?_
        cases r₂ with
        | none => exact trivial
        | some r₂ =>
          simp only
          split
          · exact trivial
          · cases getQueueValue Queue.empty r₂ with
            | none => exact trivial
            | some queue =>
              simp only
              split
              · exact trivial
              · split
                · exact trivial
                · exact registerSubscriber_performs hT

/-- What `OpenQueue` does before its locked section. -/
def createProg (a : OpenArgs) : QProg Int :=
  match a.role with
  | .publisher => createPublisher a
  | .subscriber => createSubscriber a
  | .other => pure 0

/-- `OpenQueue` is that and, on success, its locked section. -/
theorem openQueue_eval {π : Type} {P : Peer π} {clock : Nat → Nat} {uuid : Uuid} {a : OpenArgs}
    {w w' : Talk π} {x : Ret} (h : (openQueue a).eval (Talk.exec P clock uuid) w = some (x, w')) :
    ∃ w₁, (createProg a).eval (Talk.exec P clock uuid) w = some (x.1, w₁) ∧
      w' = if x.1 = SUCCESS then
          { w₁ with
            mgr := (w₁.mgr.openLock (clock w₁.ticks) uuid a).2
            ticks := w₁.ticks + 1 }
        else w₁ := by
  have heq : openQueue a = createProg a >>= fun ret => if ret = SUCCESS then
      locked (.openLock a) >>= fun code => pure (ret, some code) else pure (ret, none) := by
    unfold openQueue createProg
    cases a.role with
    | publisher => rfl
    | subscriber => rfl
    | other => rfl
  rw [heq, Prog.eval_bind] at h
  obtain ⟨⟨ret, w₁⟩, he, h⟩ := Option.bind_eq_some_iff.mp h
  by_cases hret : ret = SUCCESS
  · simp only [if_pos hret] at h
    cases h
    exact ⟨w₁, he, (if_pos hret).symm⟩
  · simp only [if_neg hret] at h
    cases h
    exact ⟨_, he, (if_neg hret).symm⟩

theorem createProg_performs {a : OpenArgs} (hr : a.role ≠ .publisher)
    (hT : T (.addClient a.msgQueueName a.clientName)) : Performs Tame T (createProg a) := by
  unfold createProg
  split
  · rename_i hrole
    exact absurd hrole hr
  · exact createSubscriber_performs hT
  · exact trivial

/-- **`PushMsg` on a connection without unread replies**, when Redis refuses nothing: its queue is
not found, or the queue is full, or the message is delivered. -/
theorem pushMsg_quiet {clock : Nat → Nat} {uuid : Uuid} {m : QueueMgr} {st : Store}
    {code data : Bytes} {x : Int} {w : Talk (Nat × Store)} (hst : WellTyped st)
    (h : (pushMsg code data).eval (Talk.exec quiet clock uuid) (.idle m (0, st)) = some (x, w)) :
    w.Idle ∧
    ((∀ item, m.msgQueueCode2QueueName code = some item → m.name2Queue item.queueName = none) ∧
        w.peer.2 = st ∨
      ∃ item queue, m.msgQueueCode2QueueName code = some item ∧
        m.name2Queue item.queueName = some queue ∧
        (QueueMgr.full queue ∧ x = MSG_LIMIT ∧ w.peer.2 = st ∨
          ¬ QueueMgr.full queue ∧ x = SUCCESS ∧ Delivered item.queueName queue.option.msgType
            (queue.clients.map SubQueue.client) data st w.peer.2)) := by
  rcases m.pushLock_cases (clock 0) code with ⟨ret, -, hl, hnone⟩ | ⟨item, queue, hi, hq, hl⟩
  · have hrun : Section.run (clock 0) uuid m (.pushLock code) = some _ := congrArg some hl
    rw [pushMsg, Talk.eval_locked _ hrun] at h
    cases h
    exact ⟨rfl, .inl ⟨hnone, rfl⟩⟩
  · by_cases hf : QueueMgr.full queue
    · rw [if_pos hf] at hl
      have hrun : Section.run (clock 0) uuid m (.pushLock code) = some _ := congrArg some hl
      rw [pushMsg, Talk.eval_locked _ hrun] at h
      cases h
      exact ⟨rfl, .inr ⟨item, queue, hi, hq, .inl ⟨hf, rfl, rfl⟩⟩⟩
    · generalize hcs : pushCmds item.queueName queue.option.msgType
        (queue.clients.map SubQueue.client) data (clock 1) = cs
      have hacc : Accepted (fun _ => none) cs (0, st) :=
        accepted_of_wellTyped (fun _ _ => rfl) hst fun c hc =>
          wellKeyed_of_mem_pushCmds (hcs ▸ hc)
      have hlen : (Talk.answers quiet cs (0, st)).length =
          2 * turns queue.option.msgType (queue.clients.map SubQueue.client) := by
        rw [Talk.length_answers, ← hcs, length_pushCmds]
      obtain ⟨ticks, he⟩ := eval_pushMsg_go quiet clock uuid (0, st) hi hq hf hcs.symm rfl
      have hiff : Accepted (fun _ => none) cs (0, st) ↔ _ :=
        accepted_iff fun c hc => pushCmds_cases (hcs ▸ hc)
      have hzero : (pushMsg code data).eval _ _ = some (0, _) :=
        he.trans (Iff.mpr (pushReplies_zero_iff _ _ hlen Talk.answers_some) ⟨hiff.mp hacc, rfl⟩)
      rw [hzero] at h
      cases h
      refine ⟨?_, .inr ⟨item, queue, hi, hq, .inr ⟨hf, rfl, ?_⟩⟩⟩
      · show 0 + _ = (Talk.answers quiet cs (0, st)).length
        rw [hlen, Nat.zero_add]
      · subst hcs
        exact delivered_of_accepted hacc

/-- `LoadQueueMeta` in the same situation. -/
theorem loadQueueMeta_quiet {clock : Nat → Nat} {uuid : Uuid} {m : QueueMgr} {st : Store} {x : Ret}
    {w : Talk (Nat × Store)} (hst : Sane st)
    (h : (callProg .loadQueueMeta).eval (Talk.exec quiet clock uuid) (.idle m (0, st)) =
      some (x, w)) :
    ∃ table, TableOf st table ∧ w.Idle ∧ w.peer.2 = st ∧
      w.mgr = { m with name2Queue := table } := by
  obtain ⟨table, w₁, hload, hidle, hstore, hmgr, ht⟩ := loadQueues_returns clock uuid
    (w := .idle m (0, st)) rfl hst
  rw [callProg, Prog.eval_bind, hload] at h
  cases h
  exact ⟨table, ht, hidle, hstore, hmgr⟩

end Calls

/-! ## `CreatePublisher` -/

/-- The reply `Command` gets: its own, or the oldest one that was not read. -/
def Talk.next {π : Type} (P : Peer π) (c : Cmd) (w : Talk π) : Option Reply :=
  match w.unread with
  | [] => (P c w.peer).1
  | e :: _ => e.2

theorem Talk.take_issue {π : Type} {P : Peer π} {c : Cmd} {w w' : Talk π} {r : Option Reply}
    (hle : w.taken ≤ w.log.length) (h : (w.issue P c).take = some (r, w')) :
    r = w.next P c ∧ w'.mgr = w.mgr ∧ w'.peer = (P c w.peer).2 := by
  obtain ⟨e, he, heq⟩ := Option.map_eq_some_iff.mp h
  cases heq
  refine ⟨?_, rfl, rfl⟩
  have hhead : (w.unread ++ [(c, (P c w.peer).1)]).head? = some e := by
    rw [unread, ← List.drop_append_of_le_length hle, List.head?_drop]
    exact he
  unfold next
  cases hu : w.unread with
  | nil =>
    rw [hu] at hhead
    cases hhead
    rfl
  | cons e' rest =>
    rw [hu] at hhead
    cases hhead
    rfl

/-- **What `CreatePublisher` can do.** It changes nothing, and succeeds only on a reply that is an
integer other than `0`; or the reply is `0`, the flag is set, and it sends `SADD` and `HMSET`. -/
theorem createPublisher_cases {π : Type} {P : Peer π} {clock : Nat → Nat} {uuid : Uuid}
    {a : OpenArgs} {w w' : Talk π} {x : Int} {c : Cmd}
    (hc : c = .sismember allQueueName a.msgQueueName.bytes) (hle : w.taken ≤ w.log.length)
    (h : (createPublisher a).eval (Talk.exec P clock uuid) w = some (x, w')) :
    w'.mgr = w.mgr ∧
    (w'.peer = (P c w.peer).2 ∧ (x = SUCCESS → ∃ n, n ≠ 0 ∧ w.next P c = some (.integer n)) ∨
      w.next P c = some (.integer 0) ∧ a.create &&& 1 ≠ 0 ∧ ∃ now, w'.peer = Talk.after P
        [c, .sadd allQueueName a.msgQueueName.bytes,
          .hmset (getQueueMetaName a.msgQueueName.bytes) (metaFields a now)] w.peer) := by
  subst hc
  unfold createPublisher at h
  rw [Talk.eval_command] at h
  obtain ⟨⟨r, w₁⟩, htake, h⟩ := Option.bind_eq_some_iff.mp h
  obtain ⟨hr, hmgr, hpeer⟩ := Talk.take_issue hle htake
  rw [← hr, ← hmgr, ← hpeer]
  have hstay : ∀ {ret : Int}, ret ≠ SUCCESS →
      (Prog.ret ret : QProg Int).eval (Talk.exec P clock uuid) w₁ = some (x, w') →
      w'.mgr = w₁.mgr ∧ (w'.peer = w₁.peer ∧ (x = SUCCESS → ∃ n, n ≠ 0 ∧ r = some (.integer n)) ∨
        r = some (.integer 0) ∧ a.create &&& 1 ≠ 0 ∧ ∃ now, w'.peer = Talk.after P
          [.sismember allQueueName a.msgQueueName.bytes,
            .sadd allQueueName a.msgQueueName.bytes,
            .hmset (getQueueMetaName a.msgQueueName.bytes) (metaFields a now)] w.peer) := by
    intro ret hne he
    cases he
    exact ⟨rfl, .inl ⟨rfl, fun hx => absurd hx hne⟩⟩
  by_cases hret : checkReply r .integer (-1) true ≠ 0
  · simp only [if_pos hret] at h
    exact hstay hret h
  · simp only [if_neg hret] at h
    obtain ⟨n, rfl⟩ := (checkReply_eq_zero r).mp (not_not.mp hret)
    have hint : ((some (Reply.integer n)).map Reply.toInt).getD 0 = n := rfl
    by_cases hn : n = 0
    · simp only [if_pos (hint.trans hn)] at h
      by_cases hcreate : a.create &&& 1 ≠ 0
      · simp only [if_pos hcreate] at h
        rw [Talk.eval_append, Talk.eval_time, Talk.eval_append] at h
        obtain ⟨hm, hp, -⟩ := ReadsOnly.eval (by
          refine .getReply fun r => ?_
          cases r with
          | none => exact trivial
          | some r =>
            refine .getReply fun r => ?_
            cases r with
            | none => exact trivial
            | some r => exact trivial) h
        refine ⟨hm, .inr ⟨by rw [hn], hcreate, clock w₁.ticks, ?_⟩⟩
        rw [hp]
        show (P _ (P _ w₁.peer).2).2 = _
        rw [hpeer]
        rfl
      · simp only [if_neg hcreate] at h
        exact hstay (by decide) h
    · simp only [if_neg (fun h => hn (hint.symm.trans h))] at h
      cases h
      exact ⟨rfl, .inl ⟨rfl, fun _ => ⟨n, hn, rfl⟩⟩⟩

end Domq.Mq
