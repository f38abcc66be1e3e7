import Domq.Mq.Subscribe

/-!
# Reloading while queues are opened

`LoadQueues` reads Redis without the lock (`SMEMBERS`, and for each queue its metadata and its
subscribers), and swaps the result in at the end. What an `OpenQueue` puts in the cache in between
is lost when the reload has already read the place where it would have been found
(`reload_loses_queue`).

* `Window`: a reload after `SMEMBERS` and before the swap.
* `quietReload`: the runs in which nothing is cached that a reload in its window has missed, and no
  `HMSET` changes the type of a queue.
* `Kept`: what holds in every state of these.
* `reload_keeps`: then, once all calls have returned, every queue that was opened is cached, with
  every client that was subscribed.
-/

namespace Domq.Mq

open Domq.Lib Domq.Redis OpenArgs

/-- A reload that has read the names `names` and then `evs`, and has not swapped yet. -/
structure Window (load : Option Call) (names : List Bytes) (evs : List Ev) : Prop where
  cur : load = some ⟨.loadQueueMeta,
    .redis (.smembers allQueueName) (.array (names.map .string)) :: evs⟩
  reads : ∀ ev ∈ evs, ev.IsRead

/-- A reload with names `names` that has read `evs` has not missed the subscriber. -/
def Covers (names : List Bytes) (evs : List Ev) (q c : CStr) : Prop :=
  q.bytes ∈ names ∧ ∀ h, Ev.redis (.hgetall (getSubQueueMetaName q.bytes)) (pairs h) ∈ evs →
    c.bytes ∈ fields h

/-- Thread `0` reloads, the others open queues; while a reload is in its window, a queue is cached
only if the reload has its name, and a subscriber only if it has not missed it; and the metadata of
a queue is written over only with the same type. -/
def quietReload : Guard Act World Env Op where
  call _ t op := t = 0 ∧ op = .loadQueueMeta ∨ t ≠ 0 ∧ ∃ a, op = .openQueue a
  act w t _ act :=
    (∀ a : OpenArgs, act = .locked (.openLock a) → a.role ≠ .other →
      ∀ names evs, Window (w.cur 0) names evs → a.msgQueueName.bytes ∈ names) ∧
    (∀ q c : CStr, act = .locked (.addClient q c) →
      ∀ names evs, Window (w.cur 0) names evs → Covers names evs q c) ∧
    ∀ (a : OpenArgs) (now : Nat), w.next t act = some (a.writeMeta now) →
      w.redis.hash (getQueueMetaName a.msgQueueName.bytes) = [] ∨
        Typed w.redis a.msgQueueName a.msgType

/-! ## The store -/

/-- The calls of these runs. -/
def Opens (op : Op) : Prop := op = .loadQueueMeta ∨ ∃ a, op = .openQueue a

/-- Nothing of this changes when hashes and names stay. -/
theorem grows_of_same {st st' : Store} (hs : Stored st) (hh : ∀ k, st'.hash k = st.hash k)
    (hm : ∀ n ∈ st.members allQueueName, n ∈ st'.members allQueueName) :
    Grows st st' ∧ Stored st' := by
  have htyped : ∀ q ty, Typed st q ty → Typed st' q ty := by
    rintro q ty ⟨a, now, hq, hty, hash⟩
    exact ⟨a, now, hq, hty, (hh _).trans hash⟩
  have hsubs : ∀ q, subscribers st' q = subscribers st q := fun q => by
    unfold subscribers
    rw [hh]
  refine ⟨⟨hm, htyped, fun q f hf => ?_⟩, fun q => ?_⟩
  · rw [hsubs]
    exact hf
  · rcases hs q with ⟨hnil, hsub⟩ | ⟨⟨ty, ht⟩, hmem⟩
    · exact .inl ⟨(hh _).trans hnil, (hsubs q).trans hsub⟩
    · exact .inr ⟨⟨ty, htyped q ty ht⟩, hm _ hmem⟩

/-- The metadata of a queue is written. -/
theorem grows_writeMeta {st : Store} (hs : Stored st) {a : OpenArgs} {now : Nat}
    (hf : (a.writeMeta now).Fits st) (hmem : a.msgQueueName.bytes ∈ st.members allQueueName)
    (hkeep : st.hash (getQueueMetaName a.msgQueueName.bytes) = [] ∨
      Typed st a.msgQueueName a.msgType) :
    Grows st ((a.writeMeta now).exec st).2 ∧ Stored ((a.writeMeta now).exec st).2 := by
  have hself : ((a.writeMeta now).exec st).2.hash (getQueueMetaName a.msgQueueName.bytes) =
      metaFields a now := by
    rw [Cmd.hash_exec hf]
    simp only [OpenArgs.writeMeta, Cmd.onHash, if_true]
    rcases hkeep with hnil | ⟨a', now', -, -, hash⟩
    · rw [hnil, hmset_metaFields_nil]
    · rw [hash, hmset_metaFields]
  have hother : ∀ q : CStr, q ≠ a.msgQueueName →
      ((a.writeMeta now).exec st).2.hash (getQueueMetaName q.bytes) =
        st.hash (getQueueMetaName q.bytes) := by
    intro q hq
    rw [Cmd.hash_exec hf]
    exact if_neg fun hk => hq (CStr.bytes_inj.mp (getQueueMetaName_injective hk.symm))
  have hsubs : ∀ q, subscribers ((a.writeMeta now).exec st).2 q = subscribers st q := by
    intro q
    unfold subscribers
    rw [Cmd.hash_exec hf]
    simp only [OpenArgs.writeMeta, Cmd.onHash, if_neg (getQueueMetaName_ne_sub _ _)]
  have hmembers : ((a.writeMeta now).exec st).2.members allQueueName = st.members allQueueName :=
    Cmd.members_exec hf _
  have htyped : ∀ q ty, Typed st q ty → Typed ((a.writeMeta now).exec st).2 q ty := by
    intro q ty ht
    by_cases hq : q = a.msgQueueName
    · subst hq
      rcases hkeep with hnil | ht'
      · obtain ⟨a', now', -, -, hash⟩ := ht
        rw [hnil] at hash
        cases hash
      · exact ⟨a, now, rfl, ht'.unique ht, hself⟩
    · obtain ⟨a', now', hq', hty, hash⟩ := ht
      exact ⟨a', now', hq', hty, (hother q hq).trans hash⟩
  refine ⟨⟨fun n hn => ?_, htyped, fun q f hq => ?_⟩, fun q => ?_⟩
  · rw [hmembers]
    exact hn
  · rw [hsubs]
    exact hq
  · rw [hmembers, hsubs]
    by_cases hq : q = a.msgQueueName
    · subst hq
      exact .inr ⟨⟨_, a, now, rfl, rfl, hself⟩, hmem⟩
    · rw [hother q hq]
      rcases hs q with hnone | ⟨⟨ty, ht⟩, hm⟩
      · exact .inl hnone
      · exact .inr ⟨⟨ty, htyped q ty ht⟩, hm⟩

/-- A subscriber is written. -/
theorem grows_addClient {st : Store} (hs : Stored st) {a : OpenArgs} {now : Nat}
    (hf : (a.addClient now).Fits st) {ty : Int32} (ht : Typed st a.msgQueueName ty) :
    Grows st ((a.addClient now).exec st).2 ∧ Stored ((a.addClient now).exec st).2 := by
  have hmeta : ∀ q : Bytes, ((a.addClient now).exec st).2.hash (getQueueMetaName q) =
      st.hash (getQueueMetaName q) := by
    intro q
    rw [Cmd.hash_exec hf]
    simp only [OpenArgs.addClient, Cmd.onHash, if_neg (Ne.symm (getQueueMetaName_ne_sub _ _))]
  have hmembers : ((a.addClient now).exec st).2.members allQueueName = st.members allQueueName :=
    Cmd.members_exec hf _
  have htyped : ∀ q ty, Typed st q ty → Typed ((a.addClient now).exec st).2 q ty := by
    rintro q ty ⟨a', now', hq, hty, hash⟩
    exact ⟨a', now', hq, hty, (hmeta _).trans hash⟩
  refine ⟨⟨fun n hn => ?_, htyped, fun q f hq => Cmd.fields_exec hf hq⟩, fun q => ?_⟩
  · rw [hmembers]
    exact hn
  · rw [hmembers, hmeta]
    rcases hs q with ⟨hnil, hsub⟩ | ⟨⟨ty', ht'⟩, hm⟩
    · left
      refine ⟨hnil, ?_⟩
      have hq : a.msgQueueName ≠ q := by
        rintro rfl
        obtain ⟨a', now', -, -, hash⟩ := ht
        rw [hnil] at hash
        cases hash
      have hkey : getSubQueueMetaName a.msgQueueName.bytes ≠ getSubQueueMetaName q.bytes :=
        fun hk => hq (CStr.bytes_inj.mp (getSubQueueMetaName_injective hk))
      unfold subscribers at hsub ⊢
      rw [Cmd.hash_exec hf]
      simp only [OpenArgs.addClient, Cmd.onHash, if_neg hkey]
      exact hsub
    · exact .inr ⟨⟨ty', htyped q ty' ht'⟩, hm⟩

/-- **A command of an open or a reload.** -/
theorem grows_exec {call : Call} {c : Cmd} {st : Store} (hex : Exec call c) (hop : Opens call.op)
    (hs : Stored st) (hf : c.Fits st) (hk : ∀ ev ∈ call.evs, Knows st ev)
    (hkeep : ∀ (a : OpenArgs) (now : Nat), c = a.writeMeta now →
      st.hash (getQueueMetaName a.msgQueueName.bytes) = [] ∨ Typed st a.msgQueueName a.msgType) :
    Grows st (c.exec st).2 ∧ Stored (c.exec st).2 := by
  have hread : (∀ k h, c.onHash k h = h) → (∀ k s, c.onMembers k s = s) →
      Grows st (c.exec st).2 ∧ Stored (c.exec st).2 := by
    intro hh hm
    refine grows_of_same hs (fun k => ?_) fun n hn => ?_
    · rw [Cmd.hash_exec hf, hh]
    · rw [Cmd.members_exec hf, hm]
      exact hn
  cases hex with
  | isMember a hr => exact hread (fun _ _ => rfl) fun _ _ => rfl
  | addName a hc =>
    refine grows_of_same hs (fun k => ?_) fun n hn => ?_
    · rw [Cmd.hash_exec hf]
      rfl
    · rw [Cmd.members_exec hf]
      simp only [OpenArgs.addName, Cmd.onMembers, if_true]
      exact mem_sadd.mpr (.inl hn)
  | create a hc r now =>
    refine grows_writeMeta hs hf ?_ (hkeep a now rfl)
    exact hk (.redis a.addName r) (by simp) rfl
  | readMeta a hr r => exact hread (fun _ _ => rfl) fun _ _ => rfl
  | isClient a h hfi hp => exact hread (fun _ _ => rfl) fun _ _ => rfl
  | addClient a h hfi hp now =>
    obtain ⟨-, queue, hval, -⟩ := hfi
    exact grows_addClient hs hf (hk (.redis a.readMeta h) (by simp) _ rfl _ _ hval).2
  | names => exact hread (fun _ _ => rfl) fun _ _ => rfl
  | load ev evs hr _ hc => cases hc <;> exact hread (fun _ _ => rfl) fun _ _ => rfl
  | push | pop | popVisit => rcases hop with hop | ⟨a, hop⟩ <;> cases hop

/-! ## The invariant -/

/-- An `OpenQueue` with these arguments has registered its session. -/
def Opened (log : List Event) (a : OpenArgs) : Prop :=
  ∃ t call now code, Event.did t call (.locked now (.openLock a) code) ∈ log

/-- A call has written the client to Redis, and will put it in the cache. -/
def Pending (cur : Tid → Option Call) (q c : CStr) : Prop :=
  ∃ t call, cur t = some call ∧ Adds q c call

/-- What an `OpenQueue` has seen in Redis when it registers its session. -/
def Seen (st : Store) (a : OpenArgs) : Prop :=
  a.msgQueueName.bytes ∈ st.members allQueueName ∧
    (a.role = .subscriber → a.msgType = SUB2PUB →
      Typed st a.msgQueueName SUB2PUB ∧ a.clientName.bytes ∈ subscribers st a.msgQueueName)

/-- What holds in every state in which the runs of `quietReload` are. -/
structure Kept (w : World) : Prop where
  calls : ∀ t call, w.cur t = some call →
    t = 0 ∧ call.op = .loadQueueMeta ∨ t ≠ 0 ∧ ∃ a, call.op = .openQueue a
  stored : Stored w.redis
  knows : ∀ t call, w.cur t = some call → ∀ ev ∈ call.evs, Knows w.redis ev
  logged : ∀ t call now a code, w.cur t = some call → Ev.locked now (.openLock a) code ∈ call.evs →
    Opened w.log a
  returned : ∀ t a evs x, Event.ret t (some ⟨.openQueue a, evs⟩) x ∈ w.log → x.1 = SUCCESS →
    Opened w.log a
  opened : ∀ a, Opened w.log a → a.role ≠ .other →
    Seen w.redis a ∧ (w.mgr.cache a.msgQueueName).isSome
  named : ∀ names evs, Window (w.cur 0) names evs → ∀ a, Opened w.log a → a.role ≠ .other →
    a.msgQueueName.bytes ∈ names
  cached : ∀ q c : CStr, Typed w.redis q SUB2PUB → c.bytes ∈ subscribers w.redis q →
    c ∈ clientsOf w.mgr q ∨ Pending w.cur q c
  missed : ∀ names evs, Window (w.cur 0) names evs → ∀ q c : CStr, Typed w.redis q SUB2PUB →
    c.bytes ∈ subscribers w.redis q → Covers names evs q c ∨ Pending w.cur q c

theorem Opened.concat {log : List Event} {a : OpenArgs} (h : Opened log a) (ev : Event) :
    Opened (log ++ [ev]) a := by
  obtain ⟨t, call, now, code, hmem⟩ := h
  exact ⟨t, call, now, code, List.mem_append_left _ hmem⟩

theorem opened_concat {log : List Event} {a : OpenArgs} {ev : Event} (h : Opened (log ++ [ev]) a) :
    Opened log a ∨ ∃ t call now code, ev = .did t call (.locked now (.openLock a) code) := by
  obtain ⟨t, call, now, code, hmem⟩ := h
  rcases List.mem_append.mp hmem with hmem | hmem
  · exact .inl ⟨t, call, now, code, hmem⟩
  · exact .inr ⟨t, call, now, code, (List.mem_singleton.mp hmem).symm⟩

theorem Seen.mono {st st' : Store} {a : OpenArgs} (h : Seen st a) (hg : Grows st st') :
    Seen st' a :=
  ⟨hg.names _ h.1, fun hr hty => ⟨hg.types _ _ (h.2 hr hty).1, hg.subs _ _ (h.2 hr hty).2⟩⟩

/-- An `OpenQueue` as publisher or subscriber that takes the lock has seen its queue. -/
theorem seen_of_granted {st : Store} {a : OpenArgs} {evs : List Ev} (hg : Granted a evs)
    (hk : ∀ ev ∈ evs, Knows st ev) (hr : a.role ≠ .other) : Seen st a := by
  have hmember : Ev.redis a.isMember (.integer 1) ∈ evs →
      a.msgQueueName.bytes ∈ st.members allQueueName := fun hmem => hk _ hmem rfl rfl
  have htyped : ∀ {h}, a.Finds h → Ev.redis a.readMeta h ∈ evs →
      Typed st a.msgQueueName a.msgType := by
    rintro h ⟨-, queue, hval, hty⟩ hmem
    exact hty ▸ (hk _ hmem _ rfl _ _ hval).2
  cases hg with
  | other hro => exact absurd hro hr
  | known hro =>
    refine ⟨hmember (by simp), fun hs => ?_⟩
    rw [hro] at hs
    cases hs
  | created hc r r' now =>
    refine ⟨hk (.redis a.addName r) (by simp) rfl, fun hs => ?_⟩
    rw [hc.1] at hs
    cases hs
  | peer h hf hp =>
    refine ⟨hmember (by simp), fun _ hty => ?_⟩
    rw [hp] at hty
    exact absurd hty (by decide)
  | client h hf hp =>
    refine ⟨hmember (by simp), fun _ hty => ⟨hty ▸ htyped hf (by simp), ?_⟩⟩
    exact hk (.redis a.isClient (.integer 1)) (by simp) _ rfl rfl
  | joined h hf hp now now' r =>
    refine ⟨hmember (by simp), fun _ hty => ⟨hty ▸ htyped hf (by simp), ?_⟩⟩
    exact hk (.redis (a.addClient now) r) (by simp) _ rfl _ (by simp [fields])

theorem Adds.not_exec {q c : CStr} {call : Call} (h : Adds q c call) {cmd : Cmd} :
    ¬ Exec call cmd := by
  intro hex
  cases h
  cases hex

theorem Granted.length_ne {a : OpenArgs} {evs : List Ev} (h : Granted a evs) : evs.length ≠ 4 := by
  cases h <;> simp

theorem Adds.locks {q c : CStr} {call : Call} (h : Adds q c call) {s : Section}
    (hl : Locks call s) : s = .addClient q c := by
  cases h with
  | mk a r now r' hq hc =>
    subst hq hc
    generalize hcall : (⟨.openQueue a, _⟩ : Call) = call at hl
    cases hl with
    | addClient a' h' hf hp now' r'' =>
      injection hcall with hop
      cases hop
      rfl
    | openLock a' evs hg =>
      injection hcall with hop hevs
      cases hop
      exact absurd (congrArg List.length hevs).symm hg.length_ne
    | _ => injection hcall with hop; cases hop

theorem Locks.granted {call : Call} {a : OpenArgs} (h : Locks call (.openLock a)) :
    ∃ evs, call = ⟨.openQueue a, evs⟩ ∧ Granted a evs := by
  cases h with
  | openLock _ evs hg => exact ⟨evs, rfl, hg⟩

theorem Adds.op {q c : CStr} {call : Call} (h : Adds q c call) : ∃ a, call.op = .openQueue a := by
  cases h with
  | mk a r now r' hq hc => exact ⟨a, rfl⟩

/-- A subscriber is written only by a call that will cache it. -/
theorem subscribers_exec {call : Call} {cmd : Cmd} {st : Store} (hex : Exec call cmd)
    (hop : Opens call.op) (hf : cmd.Fits st) (r : Reply) {q c : CStr}
    (h : c.bytes ∈ subscribers (cmd.exec st).2 q) :
    c.bytes ∈ subscribers st q ∨ Adds q c (call.did (.redis cmd r)) := by
  unfold subscribers at h ⊢
  rw [Cmd.hash_exec hf] at h
  cases hex with
  | create a hc r now =>
    simp only [OpenArgs.writeMeta, Cmd.onHash, if_neg (getQueueMetaName_ne_sub _ _)] at h
    exact .inl h
  | addClient a hh hfi hp now =>
    simp only [OpenArgs.addClient, Cmd.onHash] at h
    split at h
    · rename_i hkey
      rcases mem_fields_hmset.mp h with h | h
      · exact .inl h
      · have hq : a.msgQueueName = q := CStr.bytes_inj.mp (getSubQueueMetaName_injective hkey)
        have hc : a.clientName = c := by
          simpa [fields, eq_comm] using h
        exact .inr (.mk a hh now r hq hc)
    · exact .inl h
  | load ev evs hr _ hc => cases hc <;> exact .inl h
  | push | pop | popVisit => rcases hop with hop | ⟨a, hop⟩ <;> cases hop
  | _ => exact .inl h

/-- A queue that has subscribers keeps its type. -/
theorem typed_of_subscribers {st st' : Store} (hs : Stored st) (hg : Grows st st') {q c : CStr}
    {ty : Int32} (ht : Typed st' q ty) (hc : c.bytes ∈ subscribers st q) : Typed st q ty := by
  rcases hs q with ⟨-, hnil⟩ | ⟨⟨ty', ht'⟩, -⟩
  · rw [hnil] at hc
    cases hc
  · rw [ht.unique (hg.types _ _ ht')]
    exact ht'

/-- The window of a reload after an effect of thread `t`. -/
theorem window_did {w : World} {t : Tid} {ev : Ev} {names : List Bytes} {evs : List Ev}
    (h : Window ((w.did t ev).cur 0) names evs) :
    t ≠ 0 ∧ Window (w.cur 0) names evs ∨
    t = 0 ∧ (evs = [] ∧ ev = .redis (.smembers allQueueName) (.array (names.map .string)) ∨
      ∃ evs₀, Window (w.cur 0) names evs₀ ∧ evs = evs₀ ++ [ev] ∧ ev.IsRead) := by
  obtain ⟨hcur, hread⟩ := h
  rcases World.did_cur hcur with ⟨rfl, ⟨op, l⟩, hcur₀, hcall⟩ | ⟨ht, hcur₀⟩
  · right
    refine ⟨rfl, ?_⟩
    injection hcall with hop hevs
    subst hop
    cases l with
    | nil =>
      injection hevs with hev hnil
      exact .inl ⟨hnil, hev.symm⟩
    | cons ev₀ l =>
      injection hevs with hev hl
      subst hev hl
      refine .inr ⟨l, ⟨hcur₀, fun e he => hread e (List.mem_append_left _ he)⟩, rfl, ?_⟩
      exact hread ev (by simp)
  · exact .inl ⟨Ne.symm ht, hcur₀, hread⟩

/-- A call that adds a subscriber goes on adding it while others act. -/
theorem pending_did {w : World} {t : Tid} {ev : Ev} {q c : CStr} (h : Pending w.cur q c)
    (ht : ∀ call, w.cur t = some call → ¬ Adds q c call) : Pending (w.did t ev).cur q c := by
  obtain ⟨t', call', hcur', hadds⟩ := h
  refine ⟨t', call', ?_, hadds⟩
  have hne : t' ≠ t := by
    rintro rfl
    exact ht call' hcur' hadds
  exact (Function.update_of_ne hne _ _).trans hcur'

theorem pairs_injective : Function.Injective pairs := by
  intro h h' heq
  have hflat : (h.flatMap fun fv => [Reply.string fv.1, .string fv.2]) =
      h'.flatMap fun fv => [Reply.string fv.1, .string fv.2] := by
    injection heq
  clear heq
  induction h generalizing h' with
  | nil =>
    cases h' with
    | nil => rfl
    | cons fv' h' => cases hflat
  | cons fv h ih =>
    cases h' with
    | nil => cases hflat
    | cons fv' h' =>
      simp only [List.flatMap_cons, List.cons_append, List.nil_append, List.cons.injEq,
        Reply.string.injEq] at hflat
      rw [Prod.ext hflat.1 hflat.2.1, ih hflat.2.2]

/-- The names a reload gets are those there are. -/
theorem names_of_exec {cmd : Cmd} {st : Store} (hf : cmd.Fits st) {names : List Bytes}
    (h : Ev.redis cmd (cmd.exec st).1 =
      .redis (.smembers allQueueName) (.array (names.map .string))) :
    names = st.members allQueueName := by
  injection h with hcmd hrep
  subst hcmd
  rw [Cmd.exec_reply hf] at hrep
  simp only [Cmd.reply, Reply.array.injEq] at hrep
  exact (List.map_injective_iff.mpr (fun x y hxy => Reply.string.inj hxy) hrep).symm

/-- The operations of the threads while `Kept` holds, as its first field has them. -/
def LoaderAndOpeners (t : Tid) (op : Op) : Prop :=
  t = 0 ∧ op = .loadQueueMeta ∨ t ≠ 0 ∧ ∃ a, op = .openQueue a

theorem Kept.redis {w : World} (h : Kept w) {t : Tid} {call : Call} {cmd : Cmd}
    (pipe : Tid → List Cmd) (hcur : w.cur t = some call) (hex : Exec call cmd)
    (hf : cmd.Fits w.redis)
    (hkeep : ∀ (a : OpenArgs) (now : Nat), cmd = a.writeMeta now →
      w.redis.hash (getQueueMetaName a.msgQueueName.bytes) = [] ∨
        Typed w.redis a.msgQueueName a.msgType) :
    Kept ({ w with redis := (cmd.exec w.redis).2, pipe := pipe }.did t
      (.redis cmd (cmd.exec w.redis).1)) := by
  have hop : Opens call.op := by
    rcases h.calls t call hcur with ⟨-, hop⟩ | ⟨-, hop⟩
    · exact .inl hop
    · exact .inr hop
  obtain ⟨hg, hs⟩ := grows_exec hex hop h.stored hf (h.knows t call hcur) hkeep
  have hopened : ∀ {a}, Opened (w.log ++ [.did t (w.cur t) (.redis cmd (cmd.exec w.redis).1)]) a →
      Opened w.log a := by
    intro a ha
    rcases opened_concat ha with ha | ⟨t', call', now, code, hev⟩
    · exact ha
    · cases hev
  have hpending : ∀ {q c}, Pending w.cur q c → Pending ({ w with
      redis := (cmd.exec w.redis).2, pipe := pipe }.did t
        (.redis cmd (cmd.exec w.redis).1)).cur q c := by
    intro q c hp
    refine pending_did hp fun call' hcur' hadds => ?_
    cases hcur.symm.trans hcur'
    exact hadds.not_exec hex
  -- a subscriber was there before, or this call has just written it
  have hsub : ∀ {q c : CStr}, Typed (cmd.exec w.redis).2 q SUB2PUB →
      c.bytes ∈ subscribers (cmd.exec w.redis).2 q →
      (Typed w.redis q SUB2PUB ∧ c.bytes ∈ subscribers w.redis q) ∨ Pending ({ w with
        redis := (cmd.exec w.redis).2, pipe := pipe }.did t
          (.redis cmd (cmd.exec w.redis).1)).cur q c := by
    intro q c ht hc
    rcases subscribers_exec hex hop hf (cmd.exec w.redis).1 hc with hc | hadds
    · exact .inl ⟨typed_of_subscribers h.stored hg ht hc, hc⟩
    · refine .inr ⟨t, _, ?_, hadds⟩
      simp only [World.did, Function.update_self, hcur, Option.map_some]
  refine ⟨World.did_op (P := LoaderAndOpeners) h.calls, hs,
    World.did_evs (fun t' call' hcur' ev hev => ?_) (knows_exec h.stored hf),
    fun t' call' now a code hcur' hmem => ?_, fun t' a evs x hmem hx => ?_, fun a ha hr => ?_,
    fun names evs hw a ha hr => ?_, fun q c ht hc => ?_, fun names evs hw q c ht hc => ?_⟩
  · exact (h.knows t' call' hcur' ev hev).mono hg
  · rcases World.did_cur hcur' with ⟨-, call₀, hcur₀, rfl⟩ | ⟨-, hcur'⟩
    · rcases List.mem_append.mp hmem with hmem | hmem
      · exact (h.logged t call₀ now a code hcur₀ hmem).concat _
      · cases List.mem_singleton.mp hmem
    · exact (h.logged t' call' now a code hcur' hmem).concat _
  · rcases List.mem_append.mp hmem with hmem | hmem
    · exact (h.returned t' a evs x hmem hx).concat _
    · cases List.mem_singleton.mp hmem
  · obtain ⟨hseen, hcache⟩ := h.opened a (hopened ha) hr
    exact ⟨hseen.mono hg, hcache⟩
  · rcases window_did hw with ⟨-, hw⟩ | ⟨rfl, ⟨-, hev⟩ | ⟨evs₀, hw, -, -⟩⟩
    · exact h.named names evs hw a (hopened ha) hr
    · rw [names_of_exec hf hev]
      exact (h.opened a (hopened ha) hr).1.1
    · exact h.named names evs₀ hw a (hopened ha) hr
  · rcases hsub ht hc with ⟨ht, hc⟩ | hp
    · rcases h.cached q c ht hc with hcl | hp
      · exact .inl hcl
      · exact .inr (hpending hp)
    · exact .inr hp
  · rcases hsub ht hc with ⟨ht₀, hc₀⟩ | hp
    · rcases window_did hw with ⟨-, hw⟩ | ⟨rfl, ⟨rfl, hev⟩ | ⟨evs₀, hw₀, rfl, -⟩⟩
      · exact (h.missed names evs hw q c ht₀ hc₀).imp_right hpending
      · left
        rw [names_of_exec hf hev]
        refine ⟨?_, fun h hh => by cases hh⟩
        rcases h.stored q with ⟨-, hnil⟩ | ⟨-, hmem⟩
        · rw [hnil] at hc₀
          cases hc₀
        · exact hmem
      · rcases h.missed names evs₀ hw₀ q c ht₀ hc₀ with ⟨hq, hall⟩ | hp
        · refine .inl ⟨hq, fun fvs hmem => ?_⟩
          rcases List.mem_append.mp hmem with hmem | hmem
          · exact hall fvs hmem
          · injection List.mem_singleton.mp hmem with hcmd hrep
            subst hcmd
            rw [Cmd.exec_reply hf] at hrep
            rw [pairs_injective hrep]
            exact hc₀
        · exact .inr (hpending hp)
    · exact .inr hp

/-- A queue that is cached stays cached, unless a reload has missed it. -/
theorem Kept.isSome_lock {w : World} (h : Kept w) {t : Tid} {call : Call} {s : Section} {now : Nat}
    {u : Uuid} {m' : QueueMgr} {r : s.Res} (hcur : w.cur t = some call) (hl : Locks call s)
    (hrun : s.run now u w.mgr = some (r, m')) {a : OpenArgs} (ha : Opened w.log a)
    (hr : a.role ≠ .other) : (m'.cache a.msgQueueName).isSome := by
  have hold := (h.opened a ha hr).2
  rw [QueueMgr.cache_run hrun]
  have hupdate : ∀ q queue,
      ((Function.update w.mgr.cache q (some queue)) a.msgQueueName).isSome := by
    intro q queue
    by_cases hq : a.msgQueueName = q
    · subst hq
      rw [Function.update_self]
      rfl
    · rw [Function.update_of_ne hq]
      exact hold
  cases hl with
  | addClient => exact hupdate _ _
  | openLock => exact hupdate _ _
  | swapQueues names evs tmp hall hread =>
    have ht : t = 0 := by
      rcases h.calls t _ hcur with ⟨ht, -⟩ | ⟨-, a, hop⟩
      · exact ht
      · cases hop
    subst ht
    have hsome := hall.all _ (h.named names evs ⟨hcur, hread⟩ a ha hr)
    rw [CStr.ofBytes_bytes] at hsome
    simpa [Section.onCache] using hsome
  | _ => exact hold

/-- What the swap puts in the cache has every subscriber the reload has not missed. -/
theorem mem_of_swap {st : Store} {evs : List Ev} {names : List Bytes} {tmp : CStr → Option Queue}
    (hall : ReadAll evs names tmp) (hk : ∀ ev ∈ evs, Knows st ev) {q c : CStr}
    (ht : Typed st q SUB2PUB) (hc : Covers names evs q c) :
    ∃ queue, tmp q = some queue ∧ c ∈ queue.clients.map SubQueue.client := by
  have hsome := hall.all _ hc.1
  rw [CStr.ofBytes_bytes] at hsome
  obtain ⟨queue, hq⟩ := Option.isSome_iff_exists.mp hsome
  obtain ⟨-, ⟨q₀, q₁, r, hmem, hval, hopt⟩, hsubs⟩ := hall.only q queue hq
  obtain ⟨hname, hty⟩ := hk _ hmem q rfl q₀ q₁ hval
  rw [hopt, hname, cStr_getSubQueueMetaName] at hsubs
  obtain ⟨h, hread, hcl⟩ := hsubs (hty.unique ht)
  refine ⟨queue, hq, ?_⟩
  rw [hcl]
  obtain ⟨fv, hfv, heq⟩ := List.mem_map.mp (hc.2 h hread)
  exact List.mem_map.mpr ⟨fv, hfv, by rw [heq, CStr.ofBytes_bytes]⟩

theorem Kept.locked {w w' : World} (h : Kept w) {t : Tid} {call : Call} {s : Section} {e : Env}
    {r : s.Res} (hcur : w.cur t = some call) (hl : Locks call s)
    (hopen : ∀ a : OpenArgs, s = .openLock a → a.role ≠ .other →
      ∀ names evs, Window (w.cur 0) names evs → a.msgQueueName.bytes ∈ names)
    (hadd : ∀ q c : CStr, s = .addClient q c →
      ∀ names evs, Window (w.cur 0) names evs → Covers names evs q c)
    (hlock : w.lock t e s = some (r, w')) : Kept w' := by
  obtain ⟨-, m', hrun, rfl⟩ := World.lock_eq hlock
  have hopened : ∀ {a}, Opened (w.log ++ [.did t (w.cur t) (.locked e.now s r)]) a →
      Opened w.log a ∨ s = .openLock a := by
    intro a ha
    rcases opened_concat ha with ha | ⟨t', call', now, code, hev⟩
    · exact .inl ha
    · injection hev with _ _ hev
      injection hev with _ hs
      exact .inr hs
  have hpending : ∀ {q c}, Pending w.cur q c → Pending ({ w with
      mgr := m'
      clock := e.now
      used := if s.takesUuid then e.uuid :: w.used else w.used }.did t
        (.locked e.now s r)).cur q c ∨ s = .addClient q c := by
    intro q c hp
    by_cases hadds : Adds q c call
    · right
      exact hadds.locks hl
    · refine .inl (pending_did hp fun call' hcur' hadds' => ?_)
      cases hcur.symm.trans hcur'
      exact hadds hadds'
  have hwindow : ∀ {names evs}, Window (({ w with
      mgr := m'
      clock := e.now
      used := if s.takesUuid then e.uuid :: w.used else w.used }.did t
        (.locked e.now s r)).cur 0) names evs → Window (w.cur 0) names evs := by
    intro names evs hw
    rcases window_did hw with ⟨-, hw⟩ | ⟨-, ⟨-, hev⟩ | ⟨evs₀, -, -, c, r, hev, -⟩⟩
    · exact hw
    · cases hev
    · cases hev
  refine ⟨World.did_op (P := LoaderAndOpeners) h.calls, h.stored, World.did_evs h.knows trivial,
    fun t' call' now a code hcur' hmem => ?_, fun t' a evs x hmem hx => ?_, fun a ha hr => ?_,
    fun names evs hw a ha hr => ?_, fun q c ht hc => ?_, fun names evs hw q c ht hc => ?_⟩
  · rcases World.did_cur hcur' with ⟨-, call₀, hcur₀, rfl⟩ | ⟨-, hcur'⟩
    · rcases List.mem_append.mp hmem with hmem | hmem
      · exact (h.logged t call₀ now a code hcur₀ hmem).concat _
      · refine ⟨t, w.cur t, now, code, List.mem_append_right _ ?_⟩
        rw [List.mem_singleton.mp hmem]
        exact List.mem_singleton.mpr rfl
    · exact (h.logged t' call' now a code hcur' hmem).concat _
  · rcases List.mem_append.mp hmem with hmem | hmem
    · exact (h.returned t' a evs x hmem hx).concat _
    · cases List.mem_singleton.mp hmem
  · rcases hopened ha with ha | rfl
    · exact ⟨(h.opened a ha hr).1, h.isSome_lock hcur hl hrun ha hr⟩
    · obtain ⟨evs, rfl, hg⟩ := hl.granted
      refine ⟨seen_of_granted hg (h.knows t _ hcur) hr, ?_⟩
      simp only [World.did, QueueMgr.cache_run hrun, Section.onCache, Function.update_self,
        Option.isSome_some]
  · rcases hopened ha with ha | rfl
    · exact h.named names evs (hwindow hw) a ha hr
    · exact hopen a rfl hr names evs (hwindow hw)
  · by_cases hop : call.op = .loadQueueMeta
    · cases hl with
      | swapQueues names evs tmp hall hread =>
        have ht₀ : t = 0 := by
          rcases h.calls t _ hcur with ⟨ht₀, -⟩ | ⟨-, a, hopen⟩
          · exact ht₀
          · cases hopen
        subst ht₀
        rcases h.missed names evs ⟨hcur, hread⟩ q c ht hc with hcov | hp
        · obtain ⟨queue, hq, hmem⟩ := mem_of_swap hall
            (fun ev hev => h.knows 0 _ hcur ev (List.mem_cons_of_mem _ hev)) ht hcov
          left
          simp only [World.did, clientsOf, QueueMgr.cache_run hrun, Section.onCache, hq]
          exact hmem
        · rcases hpending hp with hp | hs
          · exact .inr hp
          · cases hs
      | _ => cases hop
    · have hclients := clientsOf_lock hrun hl hop q
      have hmono : ∀ c ∈ clientsOf w.mgr q, c ∈ clientsOf m' q := by
        intro c hc
        rcases hclients with heq | ⟨c', -, heq⟩
        · rw [heq]
          exact hc
        · rw [heq]
          exact List.mem_append_left _ hc
      rcases h.cached q c ht hc with hcl | hp
      · exact .inl (hmono c hcl)
      · rcases hpending hp with hp | rfl
        · exact .inr hp
        · left
          simp only [World.did, clientsOf, QueueMgr.cache_run hrun, Section.onCache,
            Function.update_self, Option.map_some, Option.getD_some, List.mem_append,
            List.mem_singleton, or_true]
  · rcases h.missed names evs (hwindow hw) q c ht hc with hcov | hp
    · exact .inl hcov
    · rcases hpending hp with hp | rfl
      · exact .inr hp
      · exact .inl (hadd q c rfl names evs (hwindow hw))

theorem Kept.call {w : World} (h : Kept w) {t : Tid} {op : Op} (hcur : w.cur t = none)
    (hg : t = 0 ∧ op = .loadQueueMeta ∨ t ≠ 0 ∧ ∃ a, op = .openQueue a) :
    Kept { w with cur := Function.update w.cur t (some ⟨op, []⟩) } := by
  have hpending : ∀ {q c}, Pending w.cur q c →
      Pending (Function.update w.cur t (some ⟨op, []⟩)) q c := by
    rintro q c ⟨t', call', hcur', hadds⟩
    refine ⟨t', call', ?_, hadds⟩
    have hne : t' ≠ t := by
      rintro rfl
      rw [hcur] at hcur'
      cases hcur'
    exact (Function.update_of_ne hne _ _).trans hcur'
  have hwindow : ∀ {names evs}, Window (Function.update w.cur t (some ⟨op, []⟩) 0) names evs →
      Window (w.cur 0) names evs := by
    rintro names evs ⟨hcur', hread⟩
    rcases World.update_cur hcur' with ⟨-, heq⟩ | ⟨-, hcur'⟩
    · cases heq
    · exact ⟨hcur', hread⟩
  refine ⟨fun t' call' hcur' => ?_, h.stored, fun t' call' hcur' ev hev => ?_,
    fun t' call' now a code hcur' hmem => ?_, h.returned, h.opened,
    fun names evs hw => h.named names evs (hwindow hw),
    fun q c ht hc => (h.cached q c ht hc).imp_right hpending,
    fun names evs hw q c ht hc => (h.missed names evs (hwindow hw) q c ht hc).imp_right hpending⟩
  · rcases World.update_cur hcur' with ⟨rfl, heq⟩ | ⟨-, hcur'⟩
    · cases heq
      exact hg
    · exact h.calls t' call' hcur'
  · rcases World.update_cur hcur' with ⟨-, heq⟩ | ⟨-, hcur'⟩
    · cases heq
      cases hev
    · exact h.knows t' call' hcur' ev hev
  · rcases World.update_cur hcur' with ⟨-, heq⟩ | ⟨-, hcur'⟩
    · cases heq
      cases hmem
    · exact h.logged t' call' now a code hcur' hmem

/-- A call that is adding a subscriber does not return. -/
theorem Adds.not_returns {q c : CStr} {call : Call} (h : Adds q c call) {x : Ret} :
    ¬ Returns call x := by
  intro hret
  cases h with
  | mk a r now r' hq hc =>
    rcases hret with ⟨evs, now', code, -, -, hevs⟩ | ⟨-, href⟩
    · have hlast : Ev.locked now' (.openLock a) code ∈ evs ++ [.locked now' (.openLock a) code] :=
        List.mem_append_right _ (List.mem_singleton.mpr rfl)
      rw [← hevs] at hlast
      simp at hlast
    · cases href

theorem Kept.ret {w : World} (h : Kept w) {t : Tid} {call : Call} {x : Ret}
    (hcur : w.cur t = some call) (hret : Returns call x) :
    Kept { w with
      cur := Function.update w.cur t none, log := w.log ++ [.ret t (some call) x] } := by
  have hpending : ∀ {q c}, Pending w.cur q c → Pending (Function.update w.cur t none) q c := by
    rintro q c ⟨t', call', hcur', hadds⟩
    refine ⟨t', call', ?_, hadds⟩
    have hne : t' ≠ t := by
      rintro rfl
      cases hcur.symm.trans hcur'
      exact hadds.not_returns hret
    exact (Function.update_of_ne hne _ _).trans hcur'
  have hwindow : ∀ {names evs}, Window (Function.update w.cur t none 0) names evs →
      Window (w.cur 0) names evs := by
    rintro names evs ⟨hcur', hread⟩
    rcases World.update_cur hcur' with ⟨-, heq⟩ | ⟨-, hcur'⟩
    · cases heq
    · exact ⟨hcur', hread⟩
  have hopened : ∀ {a}, Opened (w.log ++ [.ret t (some call) x]) a → Opened w.log a := by
    intro a ha
    rcases opened_concat ha with ha | ⟨t', call', now, code, hev⟩
    · exact ha
    · cases hev
  refine ⟨fun t' call' hcur' => ?_, h.stored, fun t' call' hcur' ev hev => ?_,
    fun t' call' now a code hcur' hmem => ?_, fun t' a evs y hmem hy => ?_,
    fun a ha => h.opened a (hopened ha),
    fun names evs hw a ha => h.named names evs (hwindow hw) a (hopened ha),
    fun q c ht hc => (h.cached q c ht hc).imp_right hpending,
    fun names evs hw q c ht hc => (h.missed names evs (hwindow hw) q c ht hc).imp_right hpending⟩
  · rcases World.update_cur hcur' with ⟨-, heq⟩ | ⟨-, hcur'⟩
    · cases heq
    · exact h.calls t' call' hcur'
  · rcases World.update_cur hcur' with ⟨-, heq⟩ | ⟨-, hcur'⟩
    · cases heq
    · exact h.knows t' call' hcur' ev hev
  · rcases World.update_cur hcur' with ⟨-, heq⟩ | ⟨-, hcur'⟩
    · cases heq
    · exact (h.logged t' call' now a code hcur' hmem).concat _
  · rcases List.mem_append.mp hmem with hmem | hmem
    · exact (h.returned t' a evs y hmem hy).concat _
    · cases List.mem_singleton.mp hmem
      rcases hret with ⟨evs₀, now, code, -, -, hevs⟩ | ⟨hne, -⟩
      · have hlast : Ev.locked now (.openLock a) code ∈ evs := by
          rw [show evs = _ from hevs]
          simp
        exact (h.logged t _ now a code hcur hlast).concat _
      · exact absurd hy hne

theorem Kept.step {w w' : World} {t : Tid} (h : Kept w) (hs : Step quietReload w t w') :
    Kept w' := by
  cases hs with
  | call op hcur hg => exact h.call hcur hg
  | quiet pipe clock =>
    exact ⟨h.calls, h.stored, h.knows, h.logged, h.returned, h.opened, h.named, h.cached, h.missed⟩
  | redis call c e a pipe hcur hex hf hnext hg =>
    exact h.redis pipe hcur hex hf fun arg now hc => hg.2.2 arg now (hc ▸ hnext)
  | locked call s e hcur hl hg hlock =>
    exact h.locked hcur hl (fun a hs => hg.1 a (congrArg Act.locked hs))
      (fun q c hs => hg.2.1 q c (congrArg Act.locked hs)) hlock
  | ret call x hcur hret => exact h.ret hcur hret

/-! ## Every run -/

/-- The store holds queues as `OpenQueue` writes them, and the cache has their subscribers, as after
the reload `QueueMgr::Open` makes. -/
structure Loaded (w : World) : Prop where
  stored : Stored w.redis
  cached : ∀ q c : CStr, Typed w.redis q SUB2PUB → c.bytes ∈ subscribers w.redis q →
    c ∈ clientsOf w.mgr q

theorem kept_boot {c : Conf} (hb : Boot c) (h : Loaded c.shared) : Kept c.shared := by
  have hidle : ∀ {t call}, c.shared.cur t ≠ some call := by
    intro t call hcur
    rw [hb.cur] at hcur
    cases hcur
  have hlog : ∀ {a}, ¬ Opened c.shared.log a := by
    rintro a ⟨t, call, now, code, hmem⟩
    rw [hb.log] at hmem
    cases hmem
  refine ⟨fun t call hcur => absurd hcur hidle, h.stored, fun t call hcur => absurd hcur hidle,
    fun t call now a code hcur => absurd hcur hidle, fun t a evs x hmem => ?_,
    fun a ha => absurd ha hlog, fun names evs hw => absurd hw.cur hidle,
    fun q cl ht hc => .inl (h.cached q cl ht hc), fun names evs hw => absurd hw.cur hidle⟩
  rw [hb.log] at hmem
  cases hmem

/-- The queue of a successful `OpenQueue` is cached, and its client is among the subscribers. -/
def KeepsOpened (w : World) : Prop :=
  ∀ t a evs x, Event.ret t (some ⟨.openQueue a, evs⟩) x ∈ w.log → x.1 = SUCCESS →
    a.role ≠ .other → ∃ queue, w.mgr.name2Queue a.msgQueueName = some queue ∧
      (a.role = .subscriber → a.msgType = SUB2PUB →
        a.clientName ∈ queue.clients.map SubQueue.client)

/-- **A reload loses no open**, when while it is between `SMEMBERS` and its swap no `OpenQueue`
caches a queue whose name it has not got or a subscriber that it has missed, and no `HMSET` changes
the type of a queue: once all calls have returned, every queue that was opened is cached with the
clients that subscribed. -/
theorem reload_keeps {c₀ c : Conf} (hb : Boot c₀) (hst : WellTyped c₀.shared.redis)
    (h₀ : Loaded c₀.shared) (hc : (server .redis).Reach quietReload c₀ c)
    (hdone : ∀ t, c.run t = none) : KeepsOpened c.shared := by
  obtain ⟨h, -, hidle⟩ := reach_protocol hb hst (kept_boot hb h₀)
    (fun w t w' hw _ hs => hw.step hs) hc
  intro t a evs x hmem hx hr
  obtain ⟨hseen, hsome⟩ := h.opened a (h.returned t a evs x hmem hx) hr
  rw [QueueMgr.cache, Option.isSome_map] at hsome
  obtain ⟨queue, hq⟩ := Option.isSome_iff_exists.mp hsome
  refine ⟨queue, hq, fun hs hty => ?_⟩
  obtain ⟨htyped, hsub⟩ := hseen.2 hs hty
  rcases h.cached _ _ htyped hsub with hcl | ⟨t', call', hcur', -⟩
  · simpa [clientsOf, QueueMgr.cache, hq, Queue.cached] using hcl
  · rw [hidle t' (hdone t')] at hcur'
    cases hcur'

/-- One reload by thread `0`, and any `OpenQueue` calls by the others. -/
def oneReload : Guard Act World Env Op where
  call w t op := t = 0 ∧ op = .loadQueueMeta ∧ (∀ call x, Event.ret 0 call x ∉ w.log) ∨
    t ≠ 0 ∧ ∃ a, op = .openQueue a
  act _ _ _ _ := True

/-- A test for `oneReload`. -/
def reloadsOnce (c : Conf) : Sys.Move Env Op → Bool
  | .call 0 .loadQueueMeta => c.shared.log.all fun
    | .ret 0 _ _ => false
    | _ => true
  | .call (_ + 1) (.openQueue _) => true
  | .call _ _ => false
  | .step _ _ => true

theorem allows_oneReload (c : Conf) (mv : Sys.Move Env Op) (h : reloadsOnce c mv) :
    Sys.Allows oneReload c mv := by
  cases mv with
  | call t op =>
    cases t with
    | zero =>
      cases op with
      | loadQueueMeta =>
        refine .inl ⟨rfl, rfl, fun call x hmem => ?_⟩
        have := List.all_eq_true.mp h _ hmem
        cases this
      | _ => cases h
    | succ t =>
      cases op with
      | openQueue a => exact .inr ⟨Nat.succ_ne_zero t, a, rfl⟩
      | _ => cases h
  | step t e => exact Sys.allows_step fun _ _ _ _ => True.intro

/-- A queue is created between the `SMEMBERS` of a reload and its swap. -/
def racingReload : List (Sys.Move Env Op) :=
  callSteps 0 .loadQueueMeta 1 (openEnv 0) ++
    callSteps 1 (.openQueue (openSub .publisher)) 8 (openEnv 1) ++ steps 0 2 (openEnv 0)

theorem reload_loses_queue :
    ¬ ∀ c, (server .redis).Reach oneReload (boot (QueueMgr.init 1000) fun _ => none) c →
      (∀ t, c.run t = none) → KeepsOpened c.shared := by
  intro h
  have hreach := Sys.reach_get allows_oneReload (server .redis)
    (boot (QueueMgr.init 1000) fun _ => none) racingReload rfl
  have hidle : ∀ t, (((server .redis).moves reloadsOnce (boot (QueueMgr.init 1000) fun _ => none)
      racingReload).get rfl).run t = none := by
    intro t
    rcases t with _ | _ | t <;> rfl
  obtain ⟨queue, hq, -⟩ := h _ hreach hidle 1 (openSub .publisher) _ (SUCCESS, _)
    (List.mem_of_getElem? (i := 5) rfl) rfl (by decide)
  cases hq

/-- A test that suffices for `quietReload`: sessions are registered in the window of a reload only
for queues it knows, subscribers only outside, and hashes are written where there is none. -/
def gentle (w : World) (t : Tid) (act : Act) : Bool :=
  (match act with
    | .locked (.openLock a) =>
      match w.cur 0 with
      | some ⟨_, .redis _ (.array names) :: _⟩ => names.any fun n => n.str = a.msgQueueName.bytes
      | _ => true
    | .locked (.addClient _ _) => (w.cur 0).isNone
    | _ => true) &&
  match w.next t act with
    | some (.hmset k _) => (w.redis.hash k).isEmpty
    | _ => true

def gentleMove (c : Conf) : Sys.Move Env Op → Bool
  | .call 0 .loadQueueMeta => true
  | .call (_ + 1) (.openQueue _) => true
  | .call _ _ => false
  | .step t _ =>
    match c.run t with
    | some (_, .act a _) => gentle c.shared t a
    | _ => true

theorem allows_quietReload (c : Conf) (mv : Sys.Move Env Op) (h : gentleMove c mv) :
    Sys.Allows quietReload c mv := by
  cases mv with
  | call t op =>
    cases t with
    | zero =>
      cases op with
      | loadQueueMeta => exact .inl ⟨rfl, rfl⟩
      | _ => cases h
    | succ t =>
      cases op with
      | openQueue a => exact .inr ⟨Nat.succ_ne_zero t, a, rfl⟩
      | _ => cases h
  | step t e =>
    refine Sys.allows_step fun op act k hrun => ?_
    simp only [gentleMove, hrun, gentle, Bool.and_eq_true] at h
    refine ⟨?_, ?_, ?_⟩
    · rintro a rfl - names evs ⟨hcur, -⟩
      have hnames := h.1
      simp only [hcur, List.any_eq_true, List.mem_map, decide_eq_true_eq] at hnames
      obtain ⟨-, ⟨n, hn, rfl⟩, heq⟩ := hnames
      exact heq ▸ hn
    · rintro q cl rfl names evs ⟨hcur, -⟩
      have hnone := h.1
      simp [hcur] at hnone
    · rintro a now hnext
      have hempty := h.2
      simp only [hnext, OpenArgs.writeMeta, List.isEmpty_iff] at hempty
      exact .inl hempty

/-- A client subscribes; during a reload, another thread opens the queue. -/
def gentleReload : List (Sys.Move Env Op) :=
  callSteps 1 (.openQueue (openSub .publisher)) 8 (openEnv 1) ++
    callSteps 1 (.openQueue (openSub .subscriber)) 10 (openEnv 2) ++
    callSteps 0 .loadQueueMeta 1 (openEnv 0) ++
    callSteps 2 (.openQueue (openSub .publisher)) 3 (openEnv 3) ++ steps 0 10 (openEnv 0)

theorem stored_empty : Stored fun _ => none := fun _ => .inl ⟨rfl, rfl⟩

/-- A subscriber from before the reload is cached after it. -/
theorem reload_keeps_subscriber :
    ∃ c queue, (server .redis).Reach quietReload (boot (QueueMgr.init 1000) fun _ => none) c ∧
      c.shared.mgr.name2Queue ⟨ascii "q", by decide⟩ = some queue ∧
      queue.option.msgType = SUB2PUB ∧
      (⟨ascii "c", by decide⟩ : CStr) ∈ queue.clients.map SubQueue.client := by
  have hloaded : Loaded (boot (QueueMgr.init 1000) fun _ => none).shared :=
    ⟨stored_empty, fun q c _ hc => absurd hc List.not_mem_nil⟩
  have hreach := Sys.reach_get allows_quietReload (server .redis)
    (boot (QueueMgr.init 1000) fun _ => none) gentleReload rfl
  have hidle : ∀ t, (((server .redis).moves gentleMove (boot (QueueMgr.init 1000) fun _ => none)
      gentleReload).get rfl).run t = none := by
    intro t
    rcases t with _ | _ | _ | t <;> rfl
  obtain ⟨queue, hq, hmem⟩ := reload_keeps (boot_boot _ _) wellTyped_empty hloaded hreach hidle
    1 (openSub .subscriber) _ (SUCCESS, _) (List.mem_of_getElem? (i := 11) rfl) rfl (by decide)
  cases (show some queue = some _ from hq.symm.trans rfl)
  exact ⟨_, _, hreach, rfl, rfl, hmem rfl rfl⟩

end Domq.Mq
