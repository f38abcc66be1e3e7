import Domq.Mq.Protocol
import Domq.Mq.Cache

/-!
# Point-to-point queues are FIFO

Any number of threads push, pop, open, close and expire, in any interleaving, while Redis executes
every command. The messages a point-to-point queue has delivered, followed by the list Redis holds
for it, are the list it held at the start, followed by the messages pushed.

A push counts when its call has its first command executed, a pop when its `LPOP` has given a
message; both are read off the history of the call, not off the key the command went to, so the
equation says that the commands of a call go where they should and that nobody else's do.

* `Resolves`: a call works on the queue, and with the type, its locked lookup found. A cached queue
  keeps its type as long as nothing is reloaded (`typeIs_lock`).
* `fifo`: the result.
-/

namespace Domq.Mq

open Domq.Lib Domq.Redis

/-! ## Messages in the history -/

/-- The message of a `PushMsg` on `q` whose first command this is. -/
def pushOf (q : CStr) : Event → Option Bytes
  | .did _ (some ⟨.pushMsg _ data, [.locked _ (.pushLock _) (.go q' _ _ _)]⟩)
      (.redis (.rpush _ _) _) => if q' = q then some data else none
  | _ => none

/-- The message a `PopMsg` on `q` has got here. -/
def popOf (q : CStr) : Event → Option Bytes
  | .did _ (some ⟨.popMsg _, [.locked _ (.popLock _) (.go q' _ _)]⟩)
      (.redis (.lpop _) (.string d)) => if q' = q then some d else none
  | _ => none

/-- The messages pushed to `q`, in the order of their `RPUSH`. -/
def pushed (q : CStr) (log : List Event) : List Bytes := log.filterMap (pushOf q)

/-- The messages popped from `q`, in the order of their `LPOP`. -/
def popped (q : CStr) (log : List Event) : List Bytes := log.filterMap (popOf q)

/-- The call has looked up `q` and found it to be of type `ty`. -/
inductive Resolves (q : CStr) (ty : Int32) : List Ev → Prop
  | push (now : Nat) (code : Bytes) (c : CStr) (buf : List CStr) (evs : List Ev) :
      Resolves q ty (.locked now (.pushLock code) (.go q c ty buf) :: evs)
  | pop (now : Nat) (code : Bytes) (c : CStr) (evs : List Ev) :
      Resolves q ty (.locked now (.popLock code) (.go q c ty) :: evs)

/-- The queue is cached with this type. -/
def TypeIs (m : QueueMgr) (q : CStr) (ty : Int32) : Prop :=
  ∃ queue, m.cache q = some queue ∧ queue.1.msgType = ty

theorem TypeIs.unique {m : QueueMgr} {q : CStr} {ty ty' : Int32} (h : TypeIs m q ty)
    (h' : TypeIs m q ty') : ty = ty' := by
  obtain ⟨queue, hq, rfl⟩ := h
  obtain ⟨queue', hq', rfl⟩ := h'
  cases hq.symm.trans hq'
  rfl

/-! ## Lookups -/

/-- Without a reload, a section keeps the types of the cached queues. -/
theorem typeIs_lock {s : Section} {now : Nat} {u : Uuid} {m m' : QueueMgr} {r : s.Res}
    (hs : s.run now u m = some (r, m')) (hswap : ∀ n, s ≠ .swapQueues n) {q : CStr} {ty : Int32}
    (h : TypeIs m q ty) : TypeIs m' q ty := by
  obtain ⟨queue, hq, hty⟩ := h
  unfold TypeIs
  rw [QueueMgr.cache_run hs]
  cases s with
  | openLock a =>
    simp only [Section.onCache]
    by_cases hc : q = a.msgQueueName
    · subst hc
      exact ⟨queue, by rw [Function.update_self, hq]; rfl, hty⟩
    · exact ⟨queue, by rw [Function.update_of_ne hc]; exact hq, hty⟩
  | addClient q' c =>
    simp only [Section.onCache]
    by_cases hc : q = q'
    · subst hc
      exact ⟨(queue.1, queue.2 ++ [c]), by rw [Function.update_self, hq]; rfl, hty⟩
    · exact ⟨queue, by rw [Function.update_of_ne hc]; exact hq, hty⟩
  | swapQueues n => exact absurd rfl (hswap n)
  | _ => exact ⟨queue, hq, hty⟩

/-- A lookup that succeeds gives the type of a cached queue. -/
theorem typeIs_of_resolves {s : Section} {now : Nat} {u : Uuid} {m m' : QueueMgr} {r : s.Res}
    (hs : s.run now u m = some (r, m')) {q : CStr} {ty : Int32}
    (h : Resolves q ty [.locked now s r]) : TypeIs m' q ty := by
  have hcache := QueueMgr.cache_run hs
  unfold TypeIs
  rw [hcache]
  cases h with
  | push _ code c buf _ =>
    rcases m.pushLock_cases now code with ⟨ret, -, hl, -⟩ | ⟨item, queue, -, hq, hl⟩
    · rw [Section.run, hl] at hs
      cases hs
    · rw [Section.run, hl] at hs
      simp only [Option.some.injEq, Prod.mk.injEq] at hs
      split at hs
      · cases hs.1
      · cases hs.1
        exact ⟨queue.cached, QueueMgr.cache_of_name2Queue hq, rfl⟩
  | pop _ code c _ =>
    rcases m.popLock_cases now code with ⟨ret, -, hl, -⟩ | ⟨item, queue, -, hq, hl⟩
    · rw [Section.run, hl] at hs
      cases hs
    · rw [Section.run, hl] at hs
      cases hs
      exact ⟨queue.cached, QueueMgr.cache_of_name2Queue hq, rfl⟩

theorem resolves_append {q : CStr} {ty : Int32} {evs : List Ev} {ev : Ev}
    (h : Resolves q ty (evs ++ [ev])) : Resolves q ty evs ∨ evs = [] ∧ Resolves q ty [ev] := by
  cases evs with
  | nil => exact .inr ⟨rfl, h⟩
  | cons ev' evs =>
    cases h with
    | push now code c buf _ => exact .inl (.push now code c buf evs)
    | pop now code c _ => exact .inl (.pop now code c evs)

/-! ## Commands -/

/-- The commands of a `PushMsg` on a queue with one list: the `RPUSH`, then the `HSET`. -/
theorem push_single {q : CStr} {ty : Int32} {buf : List CStr} {data : Bytes} {now : Nat}
    (hty : ty ≠ SUB2PUB) {evs : List Ev} {cmd : Cmd} {rest : List Cmd}
    (h : (pushCmds q ty buf data now).map some = evs.map Ev.cmd? ++ some cmd :: rest.map some) :
    evs = [] ∧ cmd = .rpush (getQueueMsgName q.bytes) data ∨
    (∃ ev, evs = [ev]) ∧ ∃ f v, cmd = .hset (getQueueMetaName q.bytes) f v := by
  unfold pushCmds at h
  rw [if_neg hty] at h
  rcases evs with _ | ⟨ev, _ | ⟨ev', evs⟩⟩
  · simp only [List.map_nil, List.nil_append, List.map_cons, List.cons.injEq,
      Option.some.injEq] at h
    exact .inl ⟨rfl, h.1.symm⟩
  · simp only [List.map_cons, List.map_nil, List.cons_append, List.nil_append, List.cons.injEq,
      Option.some.injEq] at h
    exact .inr ⟨⟨ev, rfl⟩, _, _, h.2.1.symm⟩
  · have := congrArg List.length h
    simp at this

/-- The commands of a `PushMsg` on a queue with subscribers stay off the lists of other queues. -/
theorem push_subs {q : CStr} {buf : List CStr} {data : Bytes} {now : Nat} {cmd : Cmd}
    (h : cmd ∈ pushCmds q SUB2PUB buf data now) (st : Store) (hf : cmd.Fits st) (q' : CStr) :
    (cmd.exec st).2.list (getQueueMsgName q'.bytes) = st.list (getQueueMsgName q'.bytes) := by
  rw [Cmd.list_exec hf]
  unfold pushCmds at h
  rw [if_pos rfl] at h
  obtain ⟨c, -, hc⟩ := List.mem_flatMap.mp h
  rcases List.mem_pair.mp hc with rfl | rfl
  · simp only [Cmd.onList]
    rw [if_neg (Ne.symm (getQueueMsgName_ne_subName _ _ _))]
  · rfl

/-- A command that neither pushes nor pops. -/
theorem list_of_other {c : Cmd} {st : Store} (hf : c.Fits st) (hpush : ∀ k d, c ≠ .rpush k d)
    (hpop : ∀ k, c ≠ .lpop k) (q : CStr) (t : Tid) (call : Option Call) (k : Bytes) :
    (popOf q (.did t call (.redis c (c.exec st).1))).toList ++ (c.exec st).2.list k =
      st.list k ++ (pushOf q (.did t call (.redis c (c.exec st).1))).toList := by
  rw [Cmd.list_exec hf]
  cases c with
  | rpush k d => exact absurd rfl (hpush k d)
  | lpop k => exact absurd rfl (hpop k)
  | _ => simp [popOf, pushOf, Cmd.onList]

/-- One command, for a queue that is not known to have subscriber lists: a message that leaves the
list is popped, a message that enters it is pushed. -/
theorem list_of_exec {call : Call} {c : Cmd} {st : Store} (hex : Exec call c) (hf : c.Fits st)
    {q : CStr} (hty : ∀ ty, Resolves q ty call.evs → ty ≠ SUB2PUB) (t : Tid) {ev : Event}
    (hev : ev = .did t (some call) (.redis c (c.exec st).1)) :
    (popOf q ev).toList ++ (c.exec st).2.list (getQueueMsgName q.bytes) =
      st.list (getQueueMsgName q.bytes) ++ (pushOf q ev).toList := by
  subst hev
  cases hex with
  | push code data now q' cl ty buf evs now' rest _ h =>
    by_cases hsub : ty = SUB2PUB
    · subst hsub
      have hne : q' ≠ q := by
        rintro rfl
        exact hty _ (.push now code cl buf evs) rfl
      rw [push_subs (Exec.mem_pushCmds h) st hf]
      have hpush : pushOf q (.did t (some ⟨.pushMsg code data,
          .locked now (.pushLock code) (.go q' cl SUB2PUB buf) :: evs⟩)
          (.redis c (c.exec st).1)) = none := by
        unfold pushOf
        split
        · rename_i heq
          cases heq
          exact if_neg hne
        · rfl
      rw [hpush]
      simp [popOf]
    · rw [Cmd.list_exec hf]
      rcases push_single hsub h with ⟨rfl, rfl⟩ | ⟨⟨ev, rfl⟩, f, v, rfl⟩
      · by_cases hq : q' = q
        · subst hq
          simp [popOf, pushOf, Cmd.onList]
        · have hk : getQueueMsgName q'.bytes ≠ getQueueMsgName q.bytes := fun hk =>
            hq (CStr.bytes_inj.mp (getQueueMsgName_injective hk))
          simp [popOf, pushOf, Cmd.onList, hq, hk]
      · simp [popOf, pushOf, Cmd.onList]
  | pop code now q' cl ty =>
    have hpush : pushOf q (.did t
        (some ⟨.popMsg code, [.locked now (.popLock code) (.go q' cl ty)]⟩)
        (.redis (.lpop (popList q' cl ty)) ((Cmd.lpop (popList q' cl ty)).exec st).1)) = none := rfl
    rw [hpush, Cmd.list_exec hf, Cmd.exec_reply hf]
    by_cases hq : q' = q
    · subst hq
      have hkey : popList q' cl ty = getQueueMsgName q'.bytes :=
        if_neg (hty ty (.pop now code cl []))
      rw [hkey]
      cases hl : st.list (getQueueMsgName q'.bytes) with
      | nil => simp [popOf, Cmd.onList, Cmd.reply, hl]
      | cons d l => simp [popOf, Cmd.onList, Cmd.reply, hl]
    · have hk : popList q' cl ty ≠ getQueueMsgName q.bytes := by
        unfold popList
        split
        · exact Ne.symm (getQueueMsgName_ne_subName _ _ _)
        · exact fun hk => hq (CStr.bytes_inj.mp (getQueueMsgName_injective hk))
      have hpop : ∀ r, popOf q (.did t (some ⟨.popMsg code,
          [.locked now (.popLock code) (.go q' cl ty)]⟩) (.redis (.lpop (popList q' cl ty)) r)) =
          none := by
        intro r
        cases r with
        | string d => exact if_neg hq
        | _ => rfl
      rw [hpop]
      simp [Cmd.onList, hk]
  | popVisit code now q' cl ty r now' =>
    refine list_of_other hf ?_ ?_ q t _ _
    · unfold popVisit
      split
      · simp
      · simp
    · unfold popVisit
      split
      · simp
      · simp
  | load ev evs hr _ hc =>
    exact list_of_other hf (by cases hc <;> simp) (by cases hc <;> simp) q t _ _
  | _ => exact list_of_other hf (by intro k d h; cases h) (by intro k h; cases h) q t _ _

/-! ## Every run -/

/-- What holds in every state without a reload, `st₀` being the store at the start. -/
structure Fifo (st₀ : Store) (w : World) : Prop where
  noLoad : ∀ t call, w.cur t = some call → call.op ≠ .loadQueueMeta
  types : ∀ t call q ty, w.cur t = some call → Resolves q ty call.evs → TypeIs w.mgr q ty
  rets : ∀ t call x, Event.ret t (some call) x ∈ w.log →
    Returns call x ∧ ∀ q ty, Resolves q ty call.evs → TypeIs w.mgr q ty
  lists : ∀ q, ¬ TypeIs w.mgr q SUB2PUB →
    popped q w.log ++ w.redis.list (getQueueMsgName q.bytes) =
      st₀.list (getQueueMsgName q.bytes) ++ pushed q w.log

theorem Locks.not_swap {call : Call} {s : Section} (h : Locks call s)
    (hop : call.op ≠ .loadQueueMeta) (n : CStr → Option Queue) : s ≠ .swapQueues n := by
  rintro rfl
  cases h
  exact hop rfl

theorem pushOf_locked (q : CStr) (t : Tid) (call : Option Call) (now : Nat) (s : Section)
    (r : s.Res) : pushOf q (.did t call (.locked now s r)) = none := by
  unfold pushOf
  split
  · rename_i heq
    injection heq with _ _ hev
    cases hev
  · rfl

theorem popOf_locked (q : CStr) (t : Tid) (call : Option Call) (now : Nat) (s : Section)
    (r : s.Res) : popOf q (.did t call (.locked now s r)) = none := by
  unfold popOf
  split
  · rename_i heq
    injection heq with _ _ hev
    cases hev
  · rfl

theorem Fifo.locked {st₀ : Store} {w w' : World} (h : Fifo st₀ w) {t : Tid} {call : Call}
    {s : Section} {e : Env} {r : s.Res} (hcur : w.cur t = some call) (hl : Locks call s)
    (hlock : w.lock t e s = some (r, w')) : Fifo st₀ w' := by
  obtain ⟨-, m', hrun, rfl⟩ := World.lock_eq hlock
  have hmono : ∀ {q ty}, TypeIs w.mgr q ty → TypeIs m' q ty := fun hq =>
    typeIs_lock hrun (hl.not_swap (h.noLoad t call hcur)) hq
  refine ⟨World.did_op (P := fun _ op => op ≠ .loadQueueMeta) h.noLoad,
    fun t' call' q ty hcur' hres => ?_, fun t' call' x hmem => ?_,
    fun q hq => ?_⟩
  · rcases World.did_cur hcur' with ⟨-, call₀, hcur₀, rfl⟩ | ⟨-, hcur'⟩
    · rcases resolves_append hres with hold | ⟨-, hnew⟩
      · exact hmono (h.types t call₀ q ty hcur₀ hold)
      · exact typeIs_of_resolves hrun hnew
    · exact hmono (h.types t' call' q ty hcur' hres)
  · have hmem' : Event.ret t' (some call') x ∈ w.log := by simpa [World.did] using hmem
    obtain ⟨hret, htypes⟩ := h.rets t' call' x hmem'
    exact ⟨hret, fun q ty hres => hmono (htypes q ty hres)⟩
  · have hold := h.lists q fun hsub => hq (hmono hsub)
    simp only [World.did, popped, pushed, List.filterMap_append, List.filterMap_cons,
      List.filterMap_nil, pushOf_locked, popOf_locked, List.append_nil]
    exact hold

theorem Fifo.redis {st₀ : Store} {w : World} (h : Fifo st₀ w) {t : Tid} {call : Call} {c : Cmd}
    (pipe : Tid → List Cmd) (hcur : w.cur t = some call) (hex : Exec call c)
    (hf : c.Fits w.redis) :
    Fifo st₀ ({ w with redis := (c.exec w.redis).2, pipe := pipe }.did t
      (.redis c (c.exec w.redis).1)) := by
  refine ⟨World.did_op (P := fun _ op => op ≠ .loadQueueMeta) h.noLoad,
    fun t' call' q ty hcur' hres => ?_, fun t' call' x hmem => ?_,
    fun q hq => ?_⟩
  · rcases World.did_cur hcur' with ⟨-, call₀, hcur₀, rfl⟩ | ⟨-, hcur'⟩
    · rcases resolves_append hres with hold | ⟨-, hnew⟩
      · exact h.types t call₀ q ty hcur₀ hold
      · cases hnew
    · exact h.types t' call' q ty hcur' hres
  · exact h.rets t' call' x (by simpa [World.did] using hmem)
  · have hold := h.lists q hq
    have hone := list_of_exec hex hf (q := q) (fun ty hres hty =>
      hq (hty ▸ h.types t call q ty hcur hres)) t rfl
    have hsingle : ∀ (f : Event → Option Bytes) ev, List.filterMap f [ev] = (f ev).toList := by
      intro f ev
      cases hfe : f ev with
      | none => simp [hfe]
      | some d => simp [hfe]
    simp only [World.did, popped, pushed, List.filterMap_append, hcur]
    rw [hsingle, hsingle, List.append_assoc, hone, ← List.append_assoc, ← List.append_assoc]
    congr 1

theorem Fifo.step {st₀ : Store} {w w' : World} {t : Tid} (h : Fifo st₀ w)
    (hs : Step noReload w t w') : Fifo st₀ w' := by
  cases hs with
  | call op hcur hg =>
    refine ⟨fun t' call' hcur' => ?_, fun t' call' q ty hcur' hres => ?_, h.rets, h.lists⟩
    · rcases World.update_cur hcur' with ⟨-, heq⟩ | ⟨-, hcur'⟩
      · cases heq
        exact hg
      · exact h.noLoad t' call' hcur'
    · rcases World.update_cur hcur' with ⟨-, heq⟩ | ⟨-, hcur'⟩
      · cases heq
        cases hres
      · exact h.types t' call' q ty hcur' hres
  | quiet pipe clock => exact ⟨h.noLoad, h.types, h.rets, h.lists⟩
  | redis call c e a pipe hcur hex hf hnext hg => exact h.redis pipe hcur hex hf
  | locked call s e hcur hl hg hlock => exact h.locked hcur hl hlock
  | ret call x hcur hret =>
    refine ⟨fun t' call' hcur' => ?_, fun t' call' q ty hcur' hres => ?_,
      fun t' call' y hmem => ?_, fun q hq => ?_⟩
    · rcases World.update_cur hcur' with ⟨-, heq⟩ | ⟨-, hcur'⟩
      · cases heq
      · exact h.noLoad t' call' hcur'
    · rcases World.update_cur hcur' with ⟨-, heq⟩ | ⟨-, hcur'⟩
      · cases heq
      · exact h.types t' call' q ty hcur' hres
    · rcases List.mem_append.mp hmem with hmem | hmem
      · exact h.rets t' call' y hmem
      · cases List.mem_singleton.mp hmem
        exact ⟨hret, fun q ty hres => h.types t call q ty hcur hres⟩
    · have hpush : pushOf q (.ret t (some call) x) = none := rfl
      have hpop : popOf q (.ret t (some call) x) = none := rfl
      simp only [popped, pushed, List.filterMap_append, List.filterMap_cons, List.filterMap_nil,
        hpush, hpop, List.append_nil]
      exact h.lists q hq

/-- **Point-to-point FIFO.** In every state of every run without a reload, for every queue cached as
point to point: what was popped, followed by the list in Redis, is the list at the start followed by
what was pushed; so with an empty list at the start, the messages popped are a prefix of the
messages pushed and the list is the rest. A `PopMsg` on the queue has returned the message its
`LPOP` got, and a `PushMsg` on it that returned success has pushed its message. -/
theorem fifo {c₀ c : Conf} (hb : Boot c₀) (hst : WellTyped c₀.shared.redis)
    (hc : (server .redis).Reach noReload c₀ c) {q : CStr} {queue : Queue}
    (hq : c.shared.mgr.name2Queue q = some queue) (hty : queue.option.msgType = PEER2PEER)
    {log : List Event} (hlog : log = c.shared.log) {list₀ list : List Bytes}
    (hlist₀ : list₀ = c₀.shared.redis.list (getQueueMsgName q.bytes))
    (hlist : list = c.shared.redis.list (getQueueMsgName q.bytes)) :
    popped q log ++ list = list₀ ++ pushed q log ∧
    (list₀ = [] → popped q log <+: pushed q log ∧
      list = (pushed q log).drop (popped q log).length) ∧
    (∀ t code now cl ty evs x,
      .ret t (some ⟨.popMsg code, .locked now (.popLock code) (.go q cl ty) :: evs⟩) x ∈ log →
      ∃ r now' r', evs = [.redis (.lpop (getQueueMsgName q.bytes)) r,
          .redis (popVisit q cl ty now') r'] ∧
        (r = .nil ∧ x = (NO_EXIST, none) ∨ ∃ d, r = .string d ∧ x = (SUCCESS, some d))) ∧
    ∀ t code data now cl ty buf evs x,
      .ret t (some ⟨.pushMsg code data, .locked now (.pushLock code) (.go q cl ty buf) :: evs⟩) x ∈
        log → x.1 = SUCCESS →
      ∃ visit, evs.map Ev.cmd? = [some (.rpush (getQueueMsgName q.bytes) data), visit] := by
  have h₀ : Fifo c₀.shared.redis c₀.shared := by
    refine ⟨fun t call hcur => ?_, fun t call q ty hcur => ?_, fun t call x hmem => ?_,
      fun q _ => ?_⟩
    · rw [hb.cur] at hcur
      cases hcur
    · rw [hb.cur] at hcur
      cases hcur
    · rw [hb.log] at hmem
      cases hmem
    · rw [hb.log]
      simp [popped, pushed]
  obtain ⟨h, -, -⟩ := reach_protocol hb hst h₀ (fun w t w' hw _ hs => hw.step hs) hc
  subst hlog hlist₀ hlist
  have hpeer : TypeIs c.shared.mgr q PEER2PEER :=
    ⟨queue.cached, QueueMgr.cache_of_name2Queue hq, hty⟩
  have hnot : ∀ {ty}, TypeIs c.shared.mgr q ty → ty ≠ SUB2PUB := by
    rintro ty hty' rfl
    exact absurd (hpeer.unique hty') (by decide)
  have heq := h.lists q fun hsub => hnot hsub rfl
  refine ⟨heq, fun hnil => ?_, ?_, ?_⟩
  · rw [hnil, List.nil_append] at heq
    rw [← heq]
    exact ⟨List.prefix_append _ _, by rw [List.drop_left]⟩
  · intro t code now cl ty evs x hmem
    obtain ⟨hret, htypes⟩ := h.rets t _ x hmem
    have hkey : popList q cl ty = getQueueMsgName q.bytes :=
      if_neg (hnot (htypes q ty (.pop now code cl evs)))
    rcases hret with ⟨-, -, now', ret, hevs⟩ | ⟨now₁, q₁, cl₁, ty₁, r, now', r', hevs, hx⟩
    · cases hevs
    · cases hevs
      rw [hkey]
      exact ⟨r, now', r', rfl, hx⟩
  · intro t code data now cl ty buf evs x hmem hx
    obtain ⟨hret, htypes⟩ := h.rets t _ x hmem
    have hne : ty ≠ SUB2PUB := hnot (htypes q ty (.push now code cl buf evs))
    obtain ⟨now₁, q₁, cl₁, ty₁, buf₁, now', evs₁, hevs, hcmds⟩ := hret.1 hx
    cases hevs
    rw [hcmds]
    unfold pushCmds
    rw [if_neg hne]
    exact ⟨_, rfl⟩

/-- Thread `0` creates a queue; threads `0` and `1` push at the same time, the second one first; one
message is popped. -/
def twoPushes : List (Sys.Move Env Op) :=
  let a : OpenArgs :=
    ⟨⟨ascii "q", noNul_q⟩, 0, 0, 0, .publisher, 1, ⟨ascii "c", noNul_c⟩⟩
  let e : Env := ⟨5, .ofByte 1, none⟩
  let code : Bytes := hexText (List.replicate 16 1)
  callSteps 0 (.openQueue a) 8 e ++ callSteps 0 (.pushMsg code (ascii "a")) 4 e ++
    callSteps 1 (.pushMsg code (ascii "b")) 7 e ++ steps 0 3 e ++ callSteps 1 (.popMsg code) 7 e

theorem fifo_two_pushes :
    ∃ c, (server .redis).Reach noReload (boot (QueueMgr.init 1000) fun _ => none) c ∧
      popped ⟨ascii "q", by decide⟩ c.shared.log = [ascii "b"] ∧
      c.shared.redis.list (getQueueMsgName (ascii "q")) = [ascii "a"] ∧
      popped ⟨ascii "q", by decide⟩ c.shared.log ++
          c.shared.redis.list (getQueueMsgName (ascii "q")) =
        pushed ⟨ascii "q", by decide⟩ c.shared.log := by
  have hreach := Sys.reach_get allows_noReload (server .redis)
    (boot (QueueMgr.init 1000) fun _ => none) twoPushes rfl
  have hq := fifo (boot_boot _ _) wellTyped_empty hreach (q := ⟨ascii "q", by decide⟩)
    rfl rfl rfl rfl rfl
  exact ⟨_, hreach, rfl, rfl, hq.1⟩

end Domq.Mq
