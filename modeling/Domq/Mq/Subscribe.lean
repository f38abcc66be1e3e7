import Domq.Mq.Metadata
import Domq.Mq.Cache
import Mathlib.Data.List.Nodup

/-!
# Registering a subscriber

`CreateSubscriber` asks Redis whether the client is in the subscriber hash (`HEXISTS`), writes it
there if not (`HMSET`), and then appends it to the cached subscribers under the lock. Nothing holds
the three together: two calls for the same client that both ask before either has written append it
twice (`duplicate_subscriber`).

* `Checks`, `Adds`: a call between `HEXISTS` and `HMSET`, and between `HMSET` and the lock.
* `oneCheck`: the runs in which nobody asks for a client while another call for it is between
  `HEXISTS` and `HMSET`.
* `Joined`: what holds in every state of these. A client that is being added is not cached, and only
  one call adds it, because everybody who asks after its `HMSET` finds it.
* `subscribers_nodup`: then no queue has a subscriber twice, and no `PushMsg` pushes twice to a
  list.
-/

namespace Domq.Mq

open Domq.Lib Domq.Redis

/-- An `OpenQueue` that has found the client missing, and has not written it yet. -/
inductive Checks (q c : CStr) : Call → Prop
  | mk (a : OpenArgs) (h : Reply) (hq : a.msgQueueName = q) (hc : a.clientName = c) :
      Checks q c ⟨.openQueue a, [.redis a.isMember (.integer 1), .redis a.readMeta h,
        .redis a.isClient (.integer 0)]⟩

/-- An `OpenQueue` that has written the client to Redis, and has not cached it yet. -/
inductive Adds (q c : CStr) : Call → Prop
  | mk (a : OpenArgs) (h : Reply) (now : Nat) (r : Reply) (hq : a.msgQueueName = q)
      (hc : a.clientName = c) :
      Adds q c ⟨.openQueue a, [.redis a.isMember (.integer 1), .redis a.readMeta h,
        .redis a.isClient (.integer 0), .redis (a.addClient now) r]⟩

/-- No reload, and no `HEXISTS` for a client while another call for it is between `HEXISTS` and
`HMSET`. -/
def oneCheck : Guard Act World Env Op where
  call _ _ op := op ≠ .loadQueueMeta
  act w t _ a := ∀ q c : CStr, w.next t a = some (.hexists (getSubQueueMetaName q.bytes) c.bytes) →
    ∀ t' call, t' ≠ t → w.cur t' = some call → ¬ Checks q c call

/-! ## One effect of a call -/

theorem checks_did {q c : CStr} {call : Call} {ev : Ev} (h : Checks q c (call.did ev)) :
    ∃ a r, call = ⟨.openQueue a, [.redis a.isMember (.integer 1), .redis a.readMeta r]⟩ ∧
      ev = .redis a.isClient (.integer 0) ∧ a.msgQueueName = q ∧ a.clientName = c := by
  obtain ⟨op, evs⟩ := call
  generalize hcall : Call.did ⟨op, evs⟩ ev = call' at h
  cases h with
  | mk a r hq hc =>
    injection hcall with hop hevs
    obtain ⟨rfl, rfl⟩ := evs_concat (l := [_, _]) hevs
    cases hop
    exact ⟨a, r, rfl, rfl, hq, hc⟩

theorem adds_did {q c : CStr} {call : Call} {ev : Ev} (h : Adds q c (call.did ev)) :
    Checks q c call ∧ ∃ (a : OpenArgs) (now : Nat) (r : Reply),
      ev = .redis (a.addClient now) r ∧ a.msgQueueName = q ∧ a.clientName = c := by
  obtain ⟨op, evs⟩ := call
  generalize hcall : Call.did ⟨op, evs⟩ ev = call' at h
  cases h with
  | mk a r now r' hq hc =>
    injection hcall with hop hevs
    obtain ⟨rfl, rfl⟩ := evs_concat (l := [_, _, _]) hevs
    cases hop
    exact ⟨.mk a r hq hc, a, now, r', rfl, hq, hc⟩

theorem not_checks_locked {q c : CStr} {call : Call} {now : Nat} {s : Section} {r : s.Res} :
    ¬ Checks q c (call.did (.locked now s r)) := by
  intro h
  obtain ⟨a, r, -, hev, -⟩ := checks_did h
  cases hev

theorem not_adds_locked {q c : CStr} {call : Call} {now : Nat} {s : Section} {r : s.Res} :
    ¬ Adds q c (call.did (.locked now s r)) := by
  intro h
  obtain ⟨-, a, now, r, hev, -⟩ := adds_did h
  cases hev

/-- The client is missing when `HEXISTS` says so. -/
theorem not_mem_of_isClient {st : Store} {a : OpenArgs} (hf : a.isClient.Fits st)
    (h : (a.isClient.exec st).1 = .integer 0) :
    a.clientName.bytes ∉ subscribers st a.msgQueueName := by
  rw [Cmd.exec_reply hf] at h
  intro hmem
  unfold subscribers at hmem
  simp only [OpenArgs.isClient, Cmd.reply, if_pos hmem] at h
  cases h

/-- A client is appended by a call that adds it, and no section drops one. -/
theorem clientsOf_lock {call : Call} {s : Section} {now : Nat} {u : Uuid} {m m' : QueueMgr}
    {r : s.Res} (hs : s.run now u m = some (r, m')) (hl : Locks call s)
    (hop : call.op ≠ .loadQueueMeta) (q : CStr) :
    clientsOf m' q = clientsOf m q ∨
      ∃ c, Adds q c call ∧ clientsOf m' q = clientsOf m q ++ [c] := by
  have hcache := QueueMgr.cache_run hs
  unfold clientsOf
  rw [hcache]
  cases hl with
  | addClient a h hf hp now' r' =>
    simp only [Section.onCache]
    by_cases hq : q = a.msgQueueName
    · subst hq
      refine .inr ⟨a.clientName, .mk a h now' r' rfl rfl, ?_⟩
      rw [Function.update_self]
      cases m.cache a.msgQueueName with
      | none => rfl
      | some queue => rfl
    · rw [Function.update_of_ne hq]
      exact .inl rfl
  | openLock a evs hg =>
    left
    simp only [Section.onCache]
    by_cases hq : q = a.msgQueueName
    · subst hq
      rw [Function.update_self]
      cases m.cache a.msgQueueName with
      | none => rfl
      | some queue => rfl
    · rw [Function.update_of_ne hq]
  | swapQueues names evs tmp hr hread => exact absurd rfl hop
  | _ => exact .inl rfl

/-! ## The invariant -/

/-- A call that is adding the client. -/
def Joining (w : World) (t : Tid) (q c : CStr) : Prop :=
  ∃ call, w.cur t = some call ∧ (Checks q c call ∨ Adds q c call)

/-- What holds in every state in which the runs of `oneCheck` are. -/
structure Joined (w : World) : Prop where
  noLoad : ∀ t call, w.cur t = some call → call.op ≠ .loadQueueMeta
  nodup : ∀ q, (clientsOf w.mgr q).Nodup
  stored : ∀ q, ∀ c ∈ clientsOf w.mgr q, c.bytes ∈ subscribers w.redis q
  added : ∀ t q c call, w.cur t = some call → Adds q c call → c.bytes ∈ subscribers w.redis q
  absent : ∀ t q c, Joining w t q c → c ∉ clientsOf w.mgr q
  single : ∀ t t' q c, Joining w t q c → Joining w t' q c → t = t'

theorem Joined.locked {w w' : World} (h : Joined w) {t : Tid} {call : Call} {s : Section} {e : Env}
    {r : s.Res} (hcur : w.cur t = some call) (hl : Locks call s)
    (hlock : w.lock t e s = some (r, w')) : Joined w' := by
  obtain ⟨-, m', hrun, rfl⟩ := World.lock_eq hlock
  have hclients := clientsOf_lock hrun hl (h.noLoad t call hcur)
  -- the call is past adding; the others are where they were
  have hjoin : ∀ {t' q c}, Joining ({ w with
      mgr := m'
      clock := e.now
      used := if s.takesUuid then e.uuid :: w.used else w.used }.did t (.locked e.now s r)) t' q c →
      t' ≠ t ∧ Joining w t' q c := by
    rintro t' q c ⟨call', hcur', hca⟩
    rcases World.did_cur hcur' with ⟨-, call₀, -, rfl⟩ | ⟨ht, hcur'⟩
    · rcases hca with hc | hc
      · exact absurd hc not_checks_locked
      · exact absurd hc not_adds_locked
    · exact ⟨ht, call', hcur', hca⟩
  refine ⟨World.did_op (P := fun _ op => op ≠ .loadQueueMeta) h.noLoad,
    fun q => ?_, fun q c hmem => ?_,
    fun t' q c call' hcur' hadds => ?_, fun t' q c hjoin' => ?_, fun t₁ t₂ q c h₁ h₂ => ?_⟩
  · simp only [World.did]
    rcases hclients q with heq | ⟨c, hadds, heq⟩
    · rw [heq]
      exact h.nodup q
    · rw [heq]
      refine List.nodup_append.mpr ⟨h.nodup q, List.nodup_singleton c, ?_⟩
      rintro x hx y hy rfl
      rw [List.mem_singleton] at hy
      subst hy
      exact h.absent t q x ⟨call, hcur, .inr hadds⟩ hx
  · simp only [World.did] at hmem ⊢
    rcases hclients q with heq | ⟨c', hadds, heq⟩
    · rw [heq] at hmem
      exact h.stored q c hmem
    · rw [heq, List.mem_append, List.mem_singleton] at hmem
      rcases hmem with hmem | rfl
      · exact h.stored q c hmem
      · exact h.added t q c call hcur hadds
  · rcases World.did_cur hcur' with ⟨-, call₀, -, rfl⟩ | ⟨-, hcur'⟩
    · exact absurd hadds not_adds_locked
    · exact h.added t' q c call' hcur' hadds
  · obtain ⟨ht, hold⟩ := hjoin hjoin'
    simp only [World.did]
    rcases hclients q with heq | ⟨c', hadds, heq⟩
    · rw [heq]
      exact h.absent t' q c hold
    · rw [heq, List.mem_append, List.mem_singleton]
      rintro (hmem | rfl)
      · exact h.absent t' q c hold hmem
      · exact ht (h.single t' t q c hold ⟨call, hcur, .inr hadds⟩)
  · exact h.single t₁ t₂ q c (hjoin h₁).2 (hjoin h₂).2

theorem Joined.redis {w : World} (h : Joined w) {t : Tid} {call : Call} {cmd : Cmd}
    (pipe : Tid → List Cmd) (hcur : w.cur t = some call) (hf : cmd.Fits w.redis)
    (hone : ∀ q c : CStr, cmd = .hexists (getSubQueueMetaName q.bytes) c.bytes →
      ∀ t' call', t' ≠ t → w.cur t' = some call' → ¬ Checks q c call') :
    Joined ({ w with redis := (cmd.exec w.redis).2, pipe := pipe }.did t
      (.redis cmd (cmd.exec w.redis).1)) := by
  have hmono : ∀ {q : CStr} {f}, f ∈ subscribers w.redis q →
      f ∈ subscribers (cmd.exec w.redis).2 q := fun hmem => Cmd.fields_exec hf hmem
  -- the call was adding the client before, or it has just found it missing, and then it is alone
  have hself : ∀ {q c}, (Checks q c (call.did (.redis cmd (cmd.exec w.redis).1)) ∨
      Adds q c (call.did (.redis cmd (cmd.exec w.redis).1))) →
      Joining w t q c ∨ c.bytes ∉ subscribers w.redis q ∧ ∀ t', t' ≠ t → ¬ Joining w t' q c := by
    rintro q c (hc | hc)
    · right
      obtain ⟨a, r, -, hev, rfl, rfl⟩ := checks_did hc
      injection hev with hcmd hrep
      subst hcmd
      have hmiss : a.clientName.bytes ∉ subscribers w.redis a.msgQueueName :=
        not_mem_of_isClient hf hrep
      refine ⟨hmiss, ?_⟩
      rintro t' ht ⟨call', hcur', hck | hadds⟩
      · exact hone _ _ rfl t' call' ht hcur' hck
      · exact hmiss (h.added t' _ _ call' hcur' hadds)
    · exact .inl ⟨call, hcur, .inl (adds_did hc).1⟩
  have hjoin : ∀ {t' q c}, Joining ({ w with
      redis := (cmd.exec w.redis).2, pipe := pipe }.did t
        (.redis cmd (cmd.exec w.redis).1)) t' q c →
      Joining w t' q c ∨
        t' = t ∧ c.bytes ∉ subscribers w.redis q ∧ ∀ t', t' ≠ t → ¬ Joining w t' q c := by
    rintro t' q c ⟨call', hcur', hca⟩
    rcases World.did_cur hcur' with ⟨rfl, call₀, hcur₀, rfl⟩ | ⟨ht, hcur'⟩
    · cases hcur.symm.trans hcur₀
      rcases hself hca with hold | hnew
      · exact .inl hold
      · exact .inr ⟨rfl, hnew⟩
    · exact .inl ⟨call', hcur', hca⟩
  refine ⟨World.did_op (P := fun _ op => op ≠ .loadQueueMeta) h.noLoad,
    h.nodup, fun q c hmem => hmono (h.stored q c hmem),
    fun t' q c call' hcur' hadds => ?_, fun t' q c hjoin' => ?_, fun t₁ t₂ q c h₁ h₂ => ?_⟩
  · rcases World.did_cur hcur' with ⟨-, call₀, -, rfl⟩ | ⟨-, hcur'⟩
    · obtain ⟨-, a, now, r, hev, rfl, rfl⟩ := adds_did hadds
      injection hev with hcmd
      subst hcmd
      simp only [World.did, subscribers]
      rw [Cmd.hash_exec hf]
      simp only [OpenArgs.addClient, Cmd.onHash, if_true]
      exact mem_fields_hmset.mpr (.inr (by simp [fields]))
    · exact hmono (h.added t' q c call' hcur' hadds)
  · rcases hjoin hjoin' with hold | ⟨rfl, hmiss, -⟩
    · exact h.absent t' q c hold
    · exact fun hmem => hmiss (h.stored q c hmem)
  · rcases hjoin h₁ with hold₁ | ⟨rfl, -, halone⟩
    · rcases hjoin h₂ with hold₂ | ⟨rfl, -, halone⟩
      · exact h.single t₁ t₂ q c hold₁ hold₂
      · by_contra hne
        exact halone t₁ hne hold₁
    · rcases hjoin h₂ with hold₂ | ⟨rfl, -, -⟩
      · by_contra hne
        exact halone t₂ (Ne.symm hne) hold₂
      · rfl

theorem Joined.step {w w' : World} {t : Tid} (h : Joined w) (hs : Step oneCheck w t w') :
    Joined w' := by
  cases hs with
  | call op hcur hg =>
    have hjoin : ∀ {t' q c}, Joining { w with
        cur := Function.update w.cur t (some ⟨op, []⟩) } t' q c → Joining w t' q c := by
      rintro t' q c ⟨call', hcur', hca⟩
      rcases World.update_cur hcur' with ⟨-, heq⟩ | ⟨-, hcur'⟩
      · cases heq
        rcases hca with hca | hca
        · cases hca
        · cases hca
      · exact ⟨call', hcur', hca⟩
    refine ⟨fun t' call' hcur' => ?_, h.nodup, h.stored, fun t' q c call' hcur' hadds => ?_,
      fun t' q c hjoin' => h.absent t' q c (hjoin hjoin'),
      fun t₁ t₂ q c h₁ h₂ => h.single t₁ t₂ q c (hjoin h₁) (hjoin h₂)⟩
    · rcases World.update_cur hcur' with ⟨-, heq⟩ | ⟨-, hcur'⟩
      · cases heq
        exact hg
      · exact h.noLoad t' call' hcur'
    · rcases World.update_cur hcur' with ⟨-, heq⟩ | ⟨-, hcur'⟩
      · cases heq
        cases hadds
      · exact h.added t' q c call' hcur' hadds
  | quiet pipe clock => exact ⟨h.noLoad, h.nodup, h.stored, h.added, h.absent, h.single⟩
  | redis call c e a pipe hcur hex hf hnext hg =>
    exact h.redis pipe hcur hf fun q cl hc => hg q cl (hc ▸ hnext)
  | locked call s e hcur hl hg hlock => exact h.locked hcur hl hlock
  | ret call x hcur hret =>
    have hjoin : ∀ {t' q c}, Joining { w with
        cur := Function.update w.cur t none, log := w.log ++ [.ret t (some call) x] } t' q c →
        Joining w t' q c := by
      rintro t' q c ⟨call', hcur', hca⟩
      rcases World.update_cur hcur' with ⟨-, heq⟩ | ⟨-, hcur'⟩
      · cases heq
      · exact ⟨call', hcur', hca⟩
    refine ⟨fun t' call' hcur' => ?_, h.nodup, h.stored, fun t' q c call' hcur' hadds => ?_,
      fun t' q c hjoin' => h.absent t' q c (hjoin hjoin'),
      fun t₁ t₂ q c h₁ h₂ => h.single t₁ t₂ q c (hjoin h₁) (hjoin h₂)⟩
    · rcases World.update_cur hcur' with ⟨-, heq⟩ | ⟨-, hcur'⟩
      · cases heq
      · exact h.noLoad t' call' hcur'
    · rcases World.update_cur hcur' with ⟨-, heq⟩ | ⟨-, hcur'⟩
      · cases heq
      · exact h.added t' q c call' hcur' hadds

/-! ## Every run -/

/-- The lists a sequence of commands pushes to. -/
def pushKeys (cmds : List Cmd) : List Bytes :=
  cmds.filterMap fun
    | .rpush k _ => some k
    | _ => none

theorem pushKeys_pushCmds (q : CStr) (ty : Int32) (buf : List CStr) (data : Bytes) (now : Nat) :
    pushKeys (pushCmds q ty buf data now) =
      if ty = SUB2PUB then buf.map fun c => getQueueSubName q.bytes c.bytes
      else [getQueueMsgName q.bytes] := by
  unfold pushCmds
  split
  · induction buf with
    | nil => rfl
    | cons c buf ih => exact congrArg (getQueueSubName q.bytes c.bytes :: ·) ih
  · rfl

theorem nodup_pushKeys (q : CStr) (ty : Int32) {buf : List CStr} (h : buf.Nodup) (data : Bytes)
    (now : Nat) : (pushKeys (pushCmds q ty buf data now)).Nodup := by
  rw [pushKeys_pushCmds]
  split
  · exact h.map fun c c' hc => CStr.bytes_inj.mp (getQueueSubName_injective _ hc)
  · exact List.nodup_singleton _

/-- The cache has every subscriber once, and only clients of the subscriber hash. -/
def CacheStored (w : World) : Prop :=
  ∀ q queue, w.mgr.name2Queue q = some queue →
    (queue.clients.map SubQueue.client).Nodup ∧
      ∀ c ∈ queue.clients.map SubQueue.client, c.bytes ∈ subscribers w.redis q

theorem joined_boot {c : Conf} (hb : Boot c) (h : CacheStored c.shared) : Joined c.shared := by
  have hclients : ∀ q, clientsOf c.shared.mgr q = [] ∨ ∃ queue,
      c.shared.mgr.name2Queue q = some queue ∧
        clientsOf c.shared.mgr q = queue.clients.map SubQueue.client := by
    intro q
    unfold clientsOf QueueMgr.cache
    cases hq : c.shared.mgr.name2Queue q with
    | none => exact .inl rfl
    | some queue => exact .inr ⟨queue, rfl, rfl⟩
  have hidle : ∀ {t call}, c.shared.cur t ≠ some call := by
    intro t call hcur
    rw [hb.cur] at hcur
    cases hcur
  refine ⟨fun t call hcur => absurd hcur hidle, fun q => ?_, fun q cl hmem => ?_,
    fun t q cl call hcur => absurd hcur hidle, ?_, ?_⟩
  · rcases hclients q with hnil | ⟨queue, hq, heq⟩
    · rw [hnil]
      exact List.nodup_nil
    · rw [heq]
      exact (h q queue hq).1
  · rcases hclients q with hnil | ⟨queue, hq, heq⟩
    · rw [hnil] at hmem
      cases hmem
    · rw [heq] at hmem
      exact (h q queue hq).2 cl hmem
  · rintro t q cl ⟨call, hcur, -⟩
    exact absurd hcur hidle
  · rintro t t' q cl ⟨call, hcur, -⟩
    exact absurd hcur hidle

/-- **No duplicate subscriber**, when nobody asks for a client (`HEXISTS`) while another call for it
is between its `HEXISTS` and its `HMSET`: in every state, no queue has a cached subscriber twice,
and a `PushMsg` pushes to no list twice. -/
theorem subscribers_nodup {c₀ c : Conf} (hb : Boot c₀) (hst : WellTyped c₀.shared.redis)
    (h₀ : CacheStored c₀.shared) (hc : (server .redis).Reach oneCheck c₀ c) {q : CStr}
    {queue : Queue} (hq : c.shared.mgr.name2Queue q = some queue) :
    (queue.clients.map SubQueue.client).Nodup ∧
      ∀ data now, (pushKeys (pushCmds q queue.option.msgType
        (queue.clients.map SubQueue.client) data now)).Nodup := by
  obtain ⟨h, -, -⟩ := reach_protocol hb hst (joined_boot hb h₀)
    (fun w t w' hw _ hs => hw.step hs) hc
  have hnd := h.nodup q
  unfold clientsOf QueueMgr.cache at hnd
  rw [hq] at hnd
  exact ⟨hnd, fun data now => nodup_pushKeys q _ hnd data now⟩

/-- The arguments of an `OpenQueue` on the queue `q` with subscribers. -/
def openSub (role : QueueRole) : OpenArgs :=
  ⟨⟨ascii "q", noNul_q⟩, SUB2PUB, 0, 0, role, 1, ⟨ascii "c", noNul_c⟩⟩

/-- What the outside world contributes to every step of an open: the time and a uuid. -/
def openEnv (uuid : UInt8) : Env := ⟨5, .ofByte uuid, none⟩

/-- Two threads subscribe the same client, one after the other. -/
def twoJoins : List (Sys.Move Env Op) :=
  callSteps 0 (.openQueue (openSub .publisher)) 8 (openEnv 0) ++
    callSteps 0 (.openQueue (openSub .subscriber)) 10 (openEnv 1) ++
    callSteps 1 (.openQueue (openSub .subscriber)) 7 (openEnv 2)

/-- The same, both asking for the client before either has written it. -/
def racingJoins : List (Sys.Move Env Op) :=
  callSteps 0 (.openQueue (openSub .publisher)) 8 (openEnv 0) ++
    callSteps 0 (.openQueue (openSub .subscriber)) 5 (openEnv 1) ++
    callSteps 1 (.openQueue (openSub .subscriber)) 5 (openEnv 2) ++
    steps 0 5 (openEnv 1) ++ steps 1 5 (openEnv 2)

theorem duplicate_subscriber :
    ¬ ∀ c, (server .redis).Reach noReload (boot (QueueMgr.init 1000) fun _ => none) c →
      ∀ q queue, c.shared.mgr.name2Queue q = some queue →
        (queue.clients.map SubQueue.client).Nodup := by
  intro h
  have hreach := Sys.reach_get allows_noReload (server .redis)
    (boot (QueueMgr.init 1000) fun _ => none) racingJoins rfl
  have hnd := h _ hreach ⟨ascii "q", by decide⟩ _ rfl
  revert hnd
  decide

/-- A test that suffices for `oneCheck` with two threads: the other one is not where it has just
asked for its client. -/
def alone (c : Conf) : Sys.Move Env Op → Bool
  | .call t op => t < 2 && op ≠ .loadQueueMeta
  | .step t _ => t < 2 && ((c.shared.cur (1 - t)).map fun call => call.evs.length) ≠ some 3

theorem allows_oneCheck (c : Conf) (mv : Sys.Move Env Op) (hth : Threads 2 c) (h : alone c mv) :
    Sys.Allows oneCheck c mv := by
  cases mv with
  | call t op => exact (by simpa [alone] using h : t < 2 ∧ op ≠ .loadQueueMeta).2
  | step t e =>
    have hne : t < 2 ∧ ((c.shared.cur (1 - t)).map fun call => call.evs.length) ≠ some 3 := by
      simpa [alone] using h
    refine Sys.allows_step fun _ _ _ _ q cl _ t' call ht hcur hck => ?_
    have ht' : t' < 2 := by
      by_contra hge
      rw [hth t' (Nat.not_lt.mp hge)] at hcur
      cases hcur
    have htwo : ∀ i j : Nat, i < 2 → j < 2 → j ≠ i → j = 1 - i := by omega
    have hother := htwo t t' hne.1 ht' ht
    subst hother
    rw [hcur] at hne
    cases hck
    exact hne.2 rfl

/-- Two threads subscribe the same client, one after the other: it is there once. -/
theorem subscribers_two_joins :
    ∃ c queue, (server .redis).Reach oneCheck (boot (QueueMgr.init 1000) fun _ => none) c ∧
      c.shared.mgr.name2Queue ⟨ascii "q", by decide⟩ = some queue ∧
      queue.clients.map SubQueue.client = [⟨ascii "c", by decide⟩] ∧
      (queue.clients.map SubQueue.client).Nodup := by
  have hstored : CacheStored (boot (QueueMgr.init 1000) fun _ => none).shared := by
    intro q queue hq
    cases hq
  have hreach : (server .redis).Reach oneCheck (boot (QueueMgr.init 1000) fun _ => none)
      (((server .redis).moves alone (boot (QueueMgr.init 1000) fun _ => none) twoJoins).get rfl) :=
    Sys.reach_of_moves (fun c mv c' hth hok => hth.move (by
      cases mv <;> simp only [alone, Bool.and_eq_true, decide_eq_true_eq] at hok <;> exact hok.1))
      allows_oneCheck .init (fun _ _ => rfl) twoJoins (Option.some_get _).symm
  exact ⟨_, _, hreach, rfl, rfl,
    (subscribers_nodup (boot_boot _ _) wellTyped_empty hstored hreach
      (q := ⟨ascii "q", by decide⟩) rfl).1⟩

end Domq.Mq
