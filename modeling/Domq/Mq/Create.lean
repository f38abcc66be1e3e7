import Domq.Mq.Metadata
import Domq.Mq.Cache

/-!
# Creating a queue

`CreatePublisher` asks Redis whether the queue exists (`SISMEMBER`) and creates it if not (`SADD`,
`HMSET`); afterwards `OpenQueue` puts its own option in the cache, unless one is there. Several
publishers may do so at once. Then the `HMSET` that Redis executes last decides what the hash holds,
and the insertion that comes first decides what the cache holds.

* `firstInsert`, `lastWrite`: the calls of these two in the history of a run.
* `Creation`: what holds in every state of a run of publishers that create one queue.
* `creators_agree_iff`: when all have returned, cache and hash agree exactly if the two calls ask
  for the same type, duration and maximal count.
* `creators_disagree`: two publishers that both find the queue missing, and the one whose `HMSET`
  comes first takes the lock first.
-/

namespace Domq.Mq

open Domq.Lib Domq.Redis OpenArgs

/-- What a queue's hash and its cached option have in common. -/
def QueueOption.values (o : QueueOption) : Int32 × Int32 × Int32 :=
  (o.msgType, o.duration, o.maxCount)

/-- The hash has the type, duration and maximal count of the option. -/
def MetaHas (h : List (Bytes × Bytes)) (o : QueueOption) : Prop :=
  hget h (ascii "type") = some (fmtInt o.msgType.toInt) ∧
  hget h (ascii "duration") = some (fmtInt o.duration.toInt) ∧
  hget h (ascii "maxcount") = some (fmtInt o.maxCount.toInt)

instance (h : List (Bytes × Bytes)) (o : QueueOption) : Decidable (MetaHas h o) :=
  inferInstanceAs (Decidable (_ ∧ _ ∧ _))

theorem metaHas_writeMeta (h : List (Bytes × Bytes)) (a : OpenArgs) (now : Nat) :
    MetaHas (hmset h (metaFields a now)) a.option := by
  have htd : ascii "type" ≠ ascii "duration" := by decide
  have htm : ascii "type" ≠ ascii "maxcount" := by decide
  have htl : ascii "type" ≠ ascii "lastvisit" := by decide
  have hdm : ascii "duration" ≠ ascii "maxcount" := by decide
  have hdl : ascii "duration" ≠ ascii "lastvisit" := by decide
  have hml : ascii "maxcount" ≠ ascii "lastvisit" := by decide
  refine ⟨?_, ?_, ?_⟩
  · simp [hmset, metaFields, htl, OpenArgs.option]
  · simp [hmset, metaFields, hdl, htd.symm, hdm, OpenArgs.option]
  · simp [hmset, metaFields, hml, htm.symm, OpenArgs.option]

/-- A hash has the values of one option only. -/
theorem metaHas_iff {h : List (Bytes × Bytes)} {o o' : QueueOption} (ho : MetaHas h o) :
    MetaHas h o' ↔ o'.values = o.values := by
  have hval : ∀ x y : Int32, some (fmtInt x.toInt) = some (fmtInt y.toInt) ↔ y = x := by
    intro x y
    rw [Option.some.injEq, fmtInt_injective.eq_iff, Int32.toInt_inj, eq_comm]
  unfold MetaHas at ho ⊢
  rw [ho.1, ho.2.1, ho.2.2, hval, hval, hval]
  simp [QueueOption.values]

/-! ## The two calls -/

/-- The publisher that puts its option in the cache with this event, unless one is there. -/
def Event.insert? : Event → Option OpenArgs
  | .did _ _ (.locked _ (.openLock a) _) => some a
  | _ => none

/-- The publisher that writes its metadata to Redis with this event. -/
def Event.write? : Event → Option OpenArgs
  | .did _ (some ⟨.openQueue a, _⟩) (.redis (.hmset k _) _) =>
    if k = getQueueMetaName a.msgQueueName.bytes then some a else none
  | _ => none

/-- The call that takes the lock first. -/
def firstInsert (log : List Event) : Option OpenArgs := log.findSome? Event.insert?

/-- The call whose `HMSET` comes last. -/
def lastWrite (log : List Event) : Option OpenArgs := log.reverse.findSome? Event.write?

theorem firstInsert_concat (log : List Event) (e : Event) :
    firstInsert (log ++ [e]) = (firstInsert log).or e.insert? := by
  unfold firstInsert
  rw [List.findSome?_append]
  cases h : e.insert? <;> simp [h]

theorem lastWrite_concat (log : List Event) (e : Event) :
    lastWrite (log ++ [e]) = e.write?.or (lastWrite log) := by
  unfold lastWrite
  rw [List.reverse_append]
  cases h : e.write? <;> simp [h]

/-! ## The steps of a creating publisher -/

/-- Only publishers that may create the queue `n`. -/
def creators (n : CStr) : Guard Act World Env Op where
  call _ _ op := ∃ a : OpenArgs, op = .openQueue a ∧ a.Creates ∧ a.msgQueueName = n
  act _ _ _ _ := True

/-- An event that shows the queue in Redis. -/
def Shows (n : CStr) (ev : Ev) : Prop :=
  ev = .redis (.sismember allQueueName n.bytes) (.integer 1) ∨
    ∃ r, ev = .redis (.sadd allQueueName n.bytes) r

theorem OpenArgs.Creates.not_finds {a : OpenArgs} (hc : a.Creates) {h : Reply} : ¬ a.Finds h := by
  intro hf
  have hr := hf.1
  rw [hc.1] at hr
  cases hr

theorem OpenArgs.Creates.exec {a : OpenArgs} (hc : a.Creates) {evs : List Ev} {c : Cmd}
    (h : Exec ⟨.openQueue a, evs⟩ c) :
    (evs = [] ∧ c = a.isMember) ∨
    (evs = [.redis a.isMember (.integer 0)] ∧ c = a.addName) ∨
    ∃ r now, evs = [.redis a.isMember (.integer 0), .redis a.addName r] ∧ c = a.writeMeta now := by
  cases h with
  | isMember _ hr => exact .inl ⟨rfl, rfl⟩
  | addName _ hc => exact .inr (.inl ⟨rfl, rfl⟩)
  | create _ hc r now => exact .inr (.inr ⟨r, now, rfl, rfl⟩)
  | readMeta _ hr r =>
    rw [hc.1] at hr
    cases hr
  | isClient _ h hf hp => exact absurd hf hc.not_finds
  | addClient _ h hf hp now => exact absurd hf hc.not_finds

/-- A creating publisher that takes the lock has seen the queue. -/
theorem OpenArgs.Creates.granted {a : OpenArgs} (hc : a.Creates) {evs : List Ev}
    (h : Granted a evs) :
    ∃ ev ∈ evs, Shows a.msgQueueName ev := by
  cases h with
  | other hr =>
    rw [hc.1] at hr
    cases hr
  | known hr => exact ⟨_, List.mem_singleton.mpr rfl, .inl rfl⟩
  | created hc r r' now => exact ⟨.redis a.addName r, by simp, .inr ⟨r, rfl⟩⟩
  | peer h hf hp => exact absurd hf hc.not_finds
  | client h hf hp => exact absurd hf hc.not_finds
  | joined h hf hp now now' r => exact absurd hf hc.not_finds

theorem OpenArgs.Creates.locks {a : OpenArgs} (hc : a.Creates) {evs : List Ev} {s : Section}
    (h : Locks ⟨.openQueue a, evs⟩ s) : s = .openLock a ∧ Granted a evs := by
  cases h with
  | addClient _ h hf hp now r => exact absurd hf hc.not_finds
  | openLock _ _ hg => exact ⟨rfl, hg⟩

theorem OpenArgs.Creates.not_refused {a : OpenArgs} (hc : a.Creates) {evs : List Ev} :
    ¬ Refused a evs := by
  intro h
  cases h with
  | unknown hr h0 => exact hc.2 h0
  | missing hr h | mistyped hr h =>
    rw [hc.1] at hr
    cases hr

/-! ## The invariant -/

/-- What holds in every state of a run of publishers that create `n`. -/
structure Creation (n : CStr) (w : World) : Prop where
  calls : ∀ t call, w.cur t = some call →
    ∃ a evs, call = ⟨.openQueue a, evs⟩ ∧ a.Creates ∧ a.msgQueueName = n
  cached : (w.mgr.cache n).map Prod.fst = (firstInsert w.log).map OpenArgs.option
  written : ∀ b, lastWrite w.log = some b →
    MetaHas (w.redis.hash (getQueueMetaName n.bytes)) b.option
  -- whoever has added the name writes the metadata before it returns
  member : n.bytes ∈ w.redis.members allQueueName → (lastWrite w.log).isSome ∨
    ∃ t a r, w.cur t = some ⟨.openQueue a, [.redis a.isMember (.integer 0), .redis a.addName r]⟩
  shown : ∀ t call, w.cur t = some call → (∃ ev ∈ call.evs, Shows n ev) →
    n.bytes ∈ w.redis.members allQueueName
  inserted : (firstInsert w.log).isSome → n.bytes ∈ w.redis.members allQueueName
  locked : ∀ t call now a code, w.cur t = some call → Ev.locked now (.openLock a) code ∈ call.evs →
    (firstInsert w.log).isSome
  returned : ∀ t call x, Event.ret t call x ∈ w.log → (firstInsert w.log).isSome

/-- A queue that shows in a reply is there afterwards. -/
theorem shows_exec {n : CStr} {c : Cmd} {st : Store} (hf : c.Fits st)
    (h : Shows n (.redis c (c.exec st).1)) : n.bytes ∈ (c.exec st).2.members allQueueName := by
  rw [Cmd.members_exec hf]
  rcases h with h | ⟨r, h⟩
  · injection h with hc hr
    subst hc
    rw [Cmd.exec_reply hf] at hr
    by_contra hm
    have hm' : n.bytes ∉ st.members allQueueName := hm
    simp only [Cmd.reply, if_neg hm'] at hr
    cases hr
  · injection h with hc hr
    subst hc
    simp only [Cmd.onMembers, if_true]
    exact mem_sadd.mpr (.inr rfl)

theorem Creation.redis {n : CStr} {w : World} (h : Creation n w) {t : Tid} {call : Call} {c : Cmd}
    (pipe : Tid → List Cmd) (hcur : w.cur t = some call) (hex : Exec call c)
    (hf : c.Fits w.redis) :
    Creation n ({ w with redis := (c.exec w.redis).2, pipe := pipe }.did t
      (.redis c (c.exec w.redis).1)) := by
  obtain ⟨a, evs, rfl, hc, rfl⟩ := h.calls t call hcur
  have hins : firstInsert ({ w with redis := (c.exec w.redis).2, pipe := pipe }.did t
      (.redis c (c.exec w.redis).1)).log = firstInsert w.log := by
    simp [World.did, firstInsert_concat, Event.insert?]
  have hmono : ∀ {m : Bytes}, m ∈ w.redis.members allQueueName →
      m ∈ (c.exec w.redis).2.members allQueueName := by
    intro m hm
    rw [Cmd.members_exec hf]
    rcases hc.exec hex with ⟨-, rfl⟩ | ⟨-, rfl⟩ | ⟨r, now, -, rfl⟩
    · exact hm
    · simp only [OpenArgs.addName, Cmd.onMembers, if_true, sadd]
      split
      · exact hm
      · exact List.mem_append_left _ hm
    · exact hm
  refine ⟨fun t' call' hcur' => ?_, ?_, fun b hb => ?_, fun hm => ?_,
    fun t' call' hcur' hshow => ?_, fun hi => ?_, fun t' call' now a' code hcur' hmem => ?_,
    fun t' call' x hmem => ?_⟩
  · rcases World.did_cur hcur' with ⟨-, call₀, hcur₀, rfl⟩ | ⟨-, hcur'⟩
    · cases hcur.symm.trans hcur₀
      exact ⟨a, _, rfl, hc, rfl⟩
    · exact h.calls t' call' hcur'
  · rw [hins]
    exact h.cached
  · simp only [World.did, lastWrite_concat, hcur] at hb ⊢
    rw [Cmd.hash_exec hf]
    rcases hc.exec hex with ⟨-, rfl⟩ | ⟨-, rfl⟩ | ⟨r, now, -, rfl⟩
    · exact h.written b hb
    · exact h.written b hb
    · simp only [Event.write?, OpenArgs.writeMeta, if_true, Option.some_or] at hb
      cases hb
      simp only [OpenArgs.writeMeta, Cmd.onHash, if_true]
      exact metaHas_writeMeta _ _ _
  · simp only [World.did, lastWrite_concat, hcur] at hm ⊢
    rw [Cmd.members_exec hf] at hm
    rcases hc.exec hex with ⟨rfl, rfl⟩ | ⟨rfl, rfl⟩ | ⟨r, now, rfl, rfl⟩
    · rcases h.member hm with hw | ⟨t₀, a₀, r₀, hcur₀⟩
      · exact .inl hw
      · refine .inr ⟨t₀, a₀, r₀, ?_⟩
        have ht : t₀ ≠ t := by
          rintro rfl
          cases hcur.symm.trans hcur₀
        rw [Function.update_of_ne ht, hcur₀]
    · exact .inr ⟨t, a, _, Function.update_self ..⟩
    · left
      simp [Event.write?, OpenArgs.writeMeta]
  · rcases World.did_cur hcur' with ⟨-, call₀, hcur₀, rfl⟩ | ⟨-, hcur'⟩
    · cases hcur.symm.trans hcur₀
      obtain ⟨ev, hev, hs⟩ := hshow
      rcases List.mem_append.mp hev with hev | hev
      · exact hmono (h.shown t _ hcur ⟨ev, hev, hs⟩)
      · rw [List.mem_singleton.mp hev] at hs
        exact shows_exec hf hs
    · exact hmono (h.shown t' call' hcur' hshow)
  · rw [hins] at hi
    exact hmono (h.inserted hi)
  · rw [hins]
    rcases World.did_cur hcur' with ⟨-, call₀, hcur₀, rfl⟩ | ⟨-, hcur'⟩
    · rcases List.mem_append.mp hmem with hmem | hmem
      · exact h.locked t call₀ now a' code hcur₀ hmem
      · cases List.mem_singleton.mp hmem
    · exact h.locked t' call' now a' code hcur' hmem
  · rw [hins]
    rcases List.mem_append.mp hmem with hmem | hmem
    · exact h.returned t' call' x hmem
    · cases List.mem_singleton.mp hmem

theorem Creation.lock {n : CStr} {w w' : World} (h : Creation n w) {t : Tid} {call : Call}
    {s : Section} {e : Env} {r : s.Res} (hcur : w.cur t = some call) (hl : Locks call s)
    (hlock : w.lock t e s = some (r, w')) : Creation n w' := by
  obtain ⟨a, evs, rfl, hc, rfl⟩ := h.calls t call hcur
  obtain ⟨rfl, hg⟩ := hc.locks hl
  obtain ⟨-, m', hrun, rfl⟩ := World.lock_eq hlock
  have hcache := QueueMgr.cache_run hrun
  have hmem : a.msgQueueName.bytes ∈ w.redis.members allQueueName :=
    h.shown t _ hcur (hc.granted hg)
  have hlog : ∀ b, firstInsert (w.log ++ [.did t b (.locked e.now (.openLock a) r)]) =
      (firstInsert w.log).or (some a) := by
    intro b
    rw [firstInsert_concat]
    rfl
  have hwrite : ∀ b, lastWrite (w.log ++ [.did t b (.locked e.now (.openLock a) r)]) =
      lastWrite w.log := by
    intro b
    simp [lastWrite_concat, Event.write?]
  have hsome : ∀ b, (firstInsert (w.log ++ [.did t b (.locked e.now (.openLock a) r)])).isSome := by
    intro b
    rw [hlog, Option.isSome_or]
    simp
  refine ⟨fun t' call' hcur' => ?_, ?_, fun b hb => ?_, fun _ => ?_,
    fun t' call' hcur' _ => hmem, fun _ => hmem, fun t' call' now a' code hcur' _ => hsome _,
    fun t' call' x _ => hsome _⟩
  · rcases World.did_cur hcur' with ⟨-, call₀, hcur₀, rfl⟩ | ⟨-, hcur'⟩
    · cases hcur.symm.trans hcur₀
      exact ⟨a, _, rfl, hc, rfl⟩
    · exact h.calls t' call' hcur'
  · have hold := h.cached
    simp only [World.did, hlog, hcache, Section.onCache, Function.update_self]
    cases hi : w.mgr.cache a.msgQueueName with
    | none =>
      rw [hi, Option.map_none, eq_comm, Option.map_eq_none_iff] at hold
      rw [hold]
      rfl
    | some queue =>
      rw [hi, Option.map_some, eq_comm, Option.map_eq_some_iff] at hold
      obtain ⟨b, hb, hopt⟩ := hold
      rw [hb]
      simp [hopt]
  · simp only [World.did, hwrite] at hb ⊢
    exact h.written b hb
  · simp only [World.did, hwrite]
    rcases h.member hmem with hw | ⟨t₀, a₀, r₀, hcur₀⟩
    · exact .inl hw
    · refine .inr ⟨t₀, a₀, r₀, ?_⟩
      have ht : t₀ ≠ t := by
        rintro rfl
        cases hcur.symm.trans hcur₀
        cases hg
      rw [Function.update_of_ne ht, hcur₀]

theorem Creation.ret {n : CStr} {w : World} (h : Creation n w) {t : Tid} {call : Call} {x : Ret}
    (hcur : w.cur t = some call) (hret : Returns call x) :
    Creation n { w with
      cur := Function.update w.cur t none, log := w.log ++ [.ret t (some call) x] } := by
  obtain ⟨a, evs, rfl, hc, rfl⟩ := h.calls t call hcur
  have hins : ∀ b, firstInsert (w.log ++ [.ret t b x]) = firstInsert w.log := by
    intro b
    simp [firstInsert_concat, Event.insert?]
  have hwr : ∀ b, lastWrite (w.log ++ [.ret t b x]) = lastWrite w.log := by
    intro b
    simp [lastWrite_concat, Event.write?]
  obtain ⟨evs₀, now, code, -, hg, hevs⟩ | ⟨-, href⟩ := hret
  · have hlast : Ev.locked now (.openLock a) code ∈ evs := by
      rw [show evs = _ from hevs]
      simp
    have hdone : (firstInsert w.log).isSome := h.locked t _ now a code hcur hlast
    refine ⟨fun t' call' hcur' => ?_, ?_, ?_, fun hm => ?_, fun t' call' hcur' hshow => ?_, ?_,
      fun t' call' now' a' code' hcur' hmem => ?_, fun t' call' x' _ => ?_⟩
    · rcases World.update_cur hcur' with ⟨-, heq⟩ | ⟨-, hcur'⟩
      · cases heq
      · exact h.calls t' call' hcur'
    · rw [hins]
      exact h.cached
    · rw [hwr]
      exact h.written
    · rw [hwr]
      rcases h.member hm with hw | ⟨t₀, a₀, r₀, hcur₀⟩
      · exact .inl hw
      · refine .inr ⟨t₀, a₀, r₀, ?_⟩
        have ht : t₀ ≠ t := by
          rintro rfl
          cases hcur.symm.trans hcur₀
          simp at hlast
        exact (Function.update_of_ne ht _ _).trans hcur₀
    · rcases World.update_cur hcur' with ⟨-, heq⟩ | ⟨-, hcur'⟩
      · cases heq
      · exact h.shown t' call' hcur' hshow
    · rw [hins]
      exact h.inserted
    · rw [hins]
      exact hdone
    · rw [hins]
      exact hdone
  · exact absurd href hc.not_refused

theorem Creation.step {n : CStr} {w w' : World} {t : Tid} (h : Creation n w)
    (hs : Step (creators n) w t w') : Creation n w' := by
  cases hs with
  | call op hcur hg =>
    obtain ⟨a, rfl, hc, rfl⟩ := hg
    refine ⟨fun t' call' hcur' => ?_, h.cached, h.written, fun hm => ?_,
      fun t' call' hcur' hshow => ?_, h.inserted, fun t' call' now a' code hcur' hmem => ?_,
      h.returned⟩
    · rcases World.update_cur hcur' with ⟨-, heq⟩ | ⟨-, hcur'⟩
      · cases heq
        exact ⟨a, [], rfl, hc, rfl⟩
      · exact h.calls t' call' hcur'
    · rcases h.member hm with hw | ⟨t₀, a₀, r₀, hcur₀⟩
      · exact .inl hw
      · refine .inr ⟨t₀, a₀, r₀, ?_⟩
        have ht : t₀ ≠ t := by
          rintro rfl
          cases hcur.symm.trans hcur₀
        exact (Function.update_of_ne ht _ _).trans hcur₀
    · rcases World.update_cur hcur' with ⟨-, heq⟩ | ⟨-, hcur'⟩
      · cases heq
        obtain ⟨ev, hev, -⟩ := hshow
        cases hev
      · exact h.shown t' call' hcur' hshow
    · rcases World.update_cur hcur' with ⟨-, heq⟩ | ⟨-, hcur'⟩
      · cases heq
        cases hmem
      · exact h.locked t' call' now a' code hcur' hmem
  | quiet pipe clock =>
    exact ⟨h.calls, h.cached, h.written, h.member, h.shown, h.inserted, h.locked, h.returned⟩
  | redis call c e a pipe hcur hex hf hnext hg => exact h.redis pipe hcur hex hf
  | locked call s e hcur hl hg hlock => exact h.lock hcur hl hlock
  | ret call x hcur hret => exact h.ret hcur hret

/-! ## Every run -/

theorem creation_boot {n : CStr} {c : Conf} (hb : Boot c)
    (hnew : n.bytes ∉ c.shared.redis.members allQueueName)
    (hcache : c.shared.mgr.name2Queue n = none) : Creation n c.shared := by
  have hidle : ∀ {t call}, c.shared.cur t ≠ some call := by
    intro t call hcur
    rw [hb.cur] at hcur
    cases hcur
  have hlog := hb.log
  refine ⟨fun t call hcur => absurd hcur hidle, ?_, fun b h => ?_, fun h => absurd h hnew,
    fun t call hcur => absurd hcur hidle, fun h => ?_,
    fun t call now a code hcur => absurd hcur hidle,
    fun t call x h => ?_⟩
  · rw [hlog, QueueMgr.cache_eq_none.mpr hcache]
    rfl
  · rw [hlog] at h
    cases h
  · rw [hlog] at h
    cases h
  · rw [hlog] at h
    cases h

/-- **Concurrent creators.** Publishers that may create the queue `n` run in any interleaving, where
`n` is neither in Redis nor cached. Once all have returned, the queue is cached, and its option has
the type, duration and maximal count of the hash exactly if the call that took the lock first asked
for the same as the call whose `HMSET` came last. -/
theorem creators_agree_iff {n : CStr} {c₀ c : Conf} (hb : Boot c₀)
    (hst : WellTyped c₀.shared.redis) (hnew : n.bytes ∉ c₀.shared.redis.members allQueueName)
    (hcache : c₀.shared.mgr.name2Queue n = none) (hc : (server .redis).Reach (creators n) c₀ c)
    (hdone : ∀ t, c.run t = none) (hret : ∃ t call x, Event.ret t call x ∈ c.shared.log) :
    ∃ a b queue, firstInsert c.shared.log = some a ∧ lastWrite c.shared.log = some b ∧
      c.shared.mgr.name2Queue n = some queue ∧
      (MetaHas (c.shared.redis.hash (getQueueMetaName n.bytes)) queue.option ↔
        a.option.values = b.option.values) := by
  obtain ⟨h, -, hidle⟩ := reach_protocol hb hst (creation_boot hb hnew hcache)
    (fun w t w' hw _ hs => hw.step hs) hc
  obtain ⟨t, call, x, hmem⟩ := hret
  have hins := h.returned t call x hmem
  obtain ⟨a, ha⟩ := Option.isSome_iff_exists.mp hins
  -- nobody is between `SADD` and `HMSET` any more
  have hwrite : (lastWrite c.shared.log).isSome := by
    rcases h.member (h.inserted hins) with hw | ⟨t₀, a₀, r₀, hcur₀⟩
    · exact hw
    · rw [hidle t₀ (hdone t₀)] at hcur₀
      cases hcur₀
  obtain ⟨b, hb'⟩ := Option.isSome_iff_exists.mp hwrite
  have hcached := h.cached
  rw [ha, Option.map_some, QueueMgr.cache, Option.map_map, Option.map_eq_some_iff] at hcached
  obtain ⟨queue, hq, hopt⟩ := hcached
  refine ⟨a, b, queue, ha, hb', hq, ?_⟩
  rw [metaHas_iff (h.written b hb'), ← hopt]
  rfl

/-- A publisher that creates the queue `q`. -/
def creator (msgType duration : Int32) : OpenArgs :=
  ⟨⟨ascii "q", noNul_q⟩, msgType, duration, 0, .publisher, 1, ⟨ascii "c", noNul_c⟩⟩

/-- Two publishers one after the other, and asking for different types. -/
def twoCreators : List (Sys.Move Env Op) :=
  callSteps 0 (.openQueue (creator PEER2PEER 60)) 8 ⟨5, .ofByte 0, none⟩ ++
    callSteps 1 (.openQueue (creator SUB2PUB 10)) 3 ⟨5, .ofByte 1, none⟩

/-- The same, both asking for the queue before either has added it. -/
def racingCreators : List (Sys.Move Env Op) :=
  callSteps 0 (.openQueue (creator PEER2PEER 60)) 1 ⟨5, .ofByte 0, none⟩ ++
    callSteps 1 (.openQueue (creator SUB2PUB 10)) 1 ⟨5, .ofByte 1, none⟩ ++
    steps 0 7 ⟨5, .ofByte 0, none⟩ ++ steps 1 7 ⟨5, .ofByte 1, none⟩

/-- A test that suffices for `creators`. -/
def createsQ (_ : Conf) : Sys.Move Env Op → Bool
  | .call _ (.openQueue a) =>
    a.role = .publisher && a.create &&& 1 ≠ 0 && a.msgQueueName = ⟨ascii "q", noNul_q⟩
  | .call _ _ => false
  | .step _ _ => true

theorem allows_creators (c : Conf) (mv : Sys.Move Env Op) (h : createsQ c mv) :
    Sys.Allows (creators ⟨ascii "q", by decide⟩) c mv := by
  cases mv with
  | call t op =>
    cases op with
    | openQueue a =>
      simp only [createsQ, Bool.and_eq_true, decide_eq_true_eq] at h
      exact ⟨a, rfl, h.1, h.2⟩
    | _ => cases h
  | step t e => exact Sys.allows_step fun _ _ _ _ => True.intro

theorem creators_disagree :
    ¬ ∀ c, (server .redis).Reach (creators ⟨ascii "q", by decide⟩)
        (boot (QueueMgr.init 1000) fun _ => none) c → (∀ t, c.run t = none) →
      ∀ queue, c.shared.mgr.name2Queue ⟨ascii "q", by decide⟩ = some queue →
        MetaHas (c.shared.redis.hash (getQueueMetaName (ascii "q"))) queue.option := by
  intro h
  have hreach := Sys.reach_get allows_creators (server .redis)
    (boot (QueueMgr.init 1000) fun _ => none) racingCreators rfl
  have hidle : ∀ t, (((server .redis).moves createsQ (boot (QueueMgr.init 1000) fun _ => none)
      racingCreators).get rfl).run t = none := by
    intro t
    rcases t with _ | _ | t <;> rfl
  have hagree := h _ hreach hidle _ rfl
  revert hagree
  decide

/-- Two publishers, one after the other: cache and hash have what the first asked for. -/
theorem creators_agree_in_turn :
    ∃ c queue, (server .redis).Reach (creators ⟨ascii "q", by decide⟩)
        (boot (QueueMgr.init 1000) fun _ => none) c ∧
      c.shared.mgr.name2Queue ⟨ascii "q", by decide⟩ = some queue ∧
      queue.option = (creator PEER2PEER 60).option ∧
      MetaHas (c.shared.redis.hash (getQueueMetaName (ascii "q"))) queue.option := by
  have hreach := Sys.reach_get allows_creators (server .redis)
    (boot (QueueMgr.init 1000) fun _ => none) twoCreators rfl
  have hidle : ∀ t, (((server .redis).moves createsQ (boot (QueueMgr.init 1000) fun _ => none)
      twoCreators).get rfl).run t = none := by
    intro t
    rcases t with _ | _ | t <;> rfl
  obtain ⟨a, b, queue, ha, hb, hq, hiff⟩ := creators_agree_iff (boot_boot _ _) wellTyped_empty
    List.not_mem_nil rfl hreach hidle ⟨1, _, _, List.mem_of_getLast? rfl⟩
  cases (show some a = some (creator PEER2PEER 60) from ha.symm.trans rfl)
  cases (show some b = some (creator PEER2PEER 60) from hb.symm.trans rfl)
  cases (show some queue = some _ from hq.symm.trans rfl)
  exact ⟨_, _, hreach, rfl, rfl, hiff.mpr rfl⟩

end Domq.Mq
