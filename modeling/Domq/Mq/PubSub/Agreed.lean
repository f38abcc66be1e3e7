import Domq.Mq.Reload

/-!
# The subscribers of a queue, in Redis and in the cache

What publish and subscribe means here, the runs it is stated for, and what holds in every state of
them. The runs themselves are in `Domq.Mq.PubSub`.

* `Subscribed`, `PubSub`: who has subscribed, and that every successful `PushMsg` appends one copy
  for each of them.
* `subscribersPop`: the runs in which nobody else pops.
* `Keeps`: the names, the types and the subscribers in Redis are as they were.
* `Copies`, `Place`, `Sound`: what holds of the subscribers of a queue, of a queue, and of the call
  in progress, in every state of these runs; together `Agreed`.
-/

namespace Domq.Mq

open Domq.Lib Domq.Redis OpenArgs

/-- An `OpenQueue` of the client as a subscriber of the queue has returned `SUCCESS`. -/
def Subscribed (log : List Event) (q c : CStr) : Prop :=
  ∃ t a evs x, Event.ret t (some ⟨.openQueue a, evs⟩) x ∈ log ∧ x.1 = SUCCESS ∧
    a.role = .subscriber ∧ a.msgQueueName = q ∧ a.clientName = c

/-- What a call has done appends one copy of the message for each subscriber, and nothing else. -/
def FansOut (log : List Event) (q : CStr) (data : Bytes) (evs : List Ev) : Prop :=
  ∃ subs : List CStr, subs.Nodup ∧ (∀ c, c ∈ subs ↔ Subscribed log q c) ∧
    evs.filterMap Ev.rpush? = subs.map fun c => (getQueueSubName q.bytes c.bytes, data)

/-- Every `PushMsg` that has returned `SUCCESS` on a `SUB2PUB` queue has appended one copy for each
client that had subscribed before. -/
def PubSub (log : List Event) : Prop :=
  ∀ before after t code data evs x,
    log = before ++ .ret t (some ⟨.pushMsg code data, evs⟩) x :: after → x.1 = SUCCESS →
      ∃ now q c ty buf, evs.head? = some (.locked now (.pushLock code) (.go q c ty buf)) ∧
        (ty = SUB2PUB → FansOut before q data evs)

/-- The calls of these runs. -/
def Served : Op → Prop
  | .openQueue a => a.role ≠ .other
  | .removeExpireMsgQueueCode _ => False
  | _ => True

/-- Calls one after the other. -/
def sequential : Guard Act World Env Op where
  call w _ op := (∀ t, w.cur t = none) ∧ Served op
  act _ _ _ _ := True

/-- Calls one after the other, in which the client of a session that pops from a `SUB2PUB` queue is
one of its cached subscribers. -/
def subscribersPop : Guard Act World Env Op where
  call w _ op := (∀ t, w.cur t = none) ∧ Served op
  act w _ _ act := ∀ code item queue, act = .locked (.popLock code) →
    w.mgr.msgQueueCode2QueueName code = some item → w.mgr.name2Queue item.queueName = some queue →
    queue.option.msgType = SUB2PUB → item.clientName ∈ queue.clients.map SubQueue.client

/-! ## The store -/

/-- The names and the subscribers stay, and so do the types. -/
structure Keeps (st st' : Store) : Prop where
  names : st'.members allQueueName = st.members allQueueName
  types : ∀ q ty, Typed st q ty → Typed st' q ty
  subs : ∀ q, subscribers st' q = subscribers st q

theorem Keeps.grows {st st' : Store} (h : Keeps st st') : Grows st st' where
  names _ hn := h.names ▸ hn
  types := h.types
  subs q _ hf := (h.subs q).symm ▸ hf

theorem Keeps.stored {st st' : Store} (h : Keeps st st') (hs : Stored st)
    (hbare : ∀ q : CStr, st.hash (getQueueMetaName q.bytes) = [] →
      st'.hash (getQueueMetaName q.bytes) = []) : Stored st' := by
  intro q
  rw [h.subs, h.names]
  rcases hs q with ⟨hnil, hsub⟩ | ⟨⟨ty, ht⟩, hn⟩
  · exact .inl ⟨hbare q hnil, hsub⟩
  · exact .inr ⟨⟨ty, h.types q ty ht⟩, hn⟩

theorem Typed.ne_nil {st : Store} {q : CStr} {ty : Int32} (h : Typed st q ty) :
    st.hash (getQueueMetaName q.bytes) ≠ [] := by
  obtain ⟨a, now, -, -, hash⟩ := h
  rw [hash]
  exact List.cons_ne_nil _ _

/-- A command that writes no hash and no set. -/
theorem keeps_of_same {st : Store} {c : Cmd} (hs : Stored st) (hf : c.Fits st)
    (hh : ∀ k h, c.onHash k h = h) (hm : ∀ k s, c.onMembers k s = s) :
    Keeps st (c.exec st).2 ∧ Stored (c.exec st).2 := by
  have hhash : ∀ k, (c.exec st).2.hash k = st.hash k := fun k => (Cmd.hash_exec hf k).trans (hh k _)
  have hnames : (c.exec st).2.members allQueueName = st.members allQueueName :=
    (Cmd.members_exec hf _).trans (hm _ _)
  obtain ⟨hg, hs'⟩ := grows_of_same hs hhash fun n hn => hnames.symm ▸ hn
  refine ⟨⟨hnames, hg.types, fun q => ?_⟩, hs'⟩
  unfold subscribers
  rw [hhash]

theorem fields_hset_of_mem {h : List (Bytes × Bytes)} {f : Bytes} (v : Bytes)
    (hf : f ∈ fields h) : fields (hset h f v) = fields h := by
  induction h with
  | nil => cases hf
  | cons e rest ih =>
    obtain ⟨g, w⟩ := e
    simp only [hset]
    split
    · rename_i hgf
      subst hgf
      rfl
    · rename_i hgf
      rcases List.mem_cons.mp hf with heq | hrest
      · exact absurd heq.symm hgf
      · exact congrArg (g :: ·) (ih hrest)

/-- The time of a subscriber is written. -/
theorem keeps_visitSub {st : Store} (hs : Stored st) {q : CStr} {f v : Bytes} {c : Cmd}
    (hc : c = .hset (getSubQueueMetaName q.bytes) f v) (hf : c.Fits st)
    (hmem : f ∈ subscribers st q) : Keeps st (c.exec st).2 ∧ Stored (c.exec st).2 := by
  have hmeta : ∀ q' : CStr, (c.exec st).2.hash (getQueueMetaName q'.bytes) =
      st.hash (getQueueMetaName q'.bytes) := by
    intro q'
    rw [Cmd.hash_exec hf, hc]
    simp only [Cmd.onHash, if_neg (Ne.symm (getQueueMetaName_ne_sub _ _))]
  have hsubs : ∀ q' : CStr, subscribers (c.exec st).2 q' = subscribers st q' := by
    intro q'
    unfold subscribers
    rw [Cmd.hash_exec hf, hc]
    simp only [Cmd.onHash]
    split
    · rename_i hk
      rw [← hk]
      exact fields_hset_of_mem v hmem
    · rfl
  have hkeep : Keeps st (c.exec st).2 := by
    refine ⟨by rw [Cmd.members_exec hf, hc]; rfl, ?_, hsubs⟩
    rintro q' ty ⟨a, now, hq, hty, hash⟩
    exact ⟨a, now, hq, hty, (hmeta q').trans hash⟩
  exact ⟨hkeep, hkeep.stored hs fun q' hnil => (hmeta q').trans hnil⟩

theorem hset_metaFields (a : OpenArgs) (now now' : Nat) :
    hset (metaFields a now) (ascii "lastvisit") (fmtInt (Int32.ofNat now').toInt) =
      metaFields a now' := rfl

/-- The time of a queue is written. -/
theorem keeps_visit {st : Store} (hs : Stored st) {q : CStr} {now : Nat} {c : Cmd}
    (hc : c = .hset (getQueueMetaName q.bytes) (ascii "lastvisit")
      (fmtInt (Int32.ofNat now).toInt)) (hf : c.Fits st) {ty : Int32} (ht : Typed st q ty) :
    Keeps st (c.exec st).2 ∧ Stored (c.exec st).2 := by
  have hother : ∀ q' : CStr, q' ≠ q → (c.exec st).2.hash (getQueueMetaName q'.bytes) =
      st.hash (getQueueMetaName q'.bytes) := by
    intro q' hq
    have hkey : getQueueMetaName q.bytes ≠ getQueueMetaName q'.bytes :=
      fun hk => hq (CStr.bytes_inj.mp (getQueueMetaName_injective hk.symm))
    rw [Cmd.hash_exec hf, hc]
    simp only [Cmd.onHash, if_neg hkey]
  have hkeep : Keeps st (c.exec st).2 := by
    refine ⟨by rw [Cmd.members_exec hf, hc]; rfl, fun q' ty' ht' => ?_, fun q' => ?_⟩
    · obtain ⟨a, now', hq', hty, hash⟩ := ht'
      by_cases hq : q' = q
      · subst hq
        refine ⟨a, now, hq', hty, ?_⟩
        rw [Cmd.hash_exec hf, hash, hc]
        simp only [Cmd.onHash, if_true, hset_metaFields]
      · exact ⟨a, now', hq', hty, (hother q' hq).trans hash⟩
    · unfold subscribers
      rw [Cmd.hash_exec hf, hc]
      simp only [Cmd.onHash, if_neg (getQueueMetaName_ne_sub _ _)]
  refine ⟨hkeep, hkeep.stored hs fun q' hnil => ?_⟩
  have hq : q' ≠ q := by
    rintro rfl
    exact ht.ne_nil hnil
  rw [hother q' hq, hnil]

/-! ## The invariant -/

/-- An `OpenQueue` that has added the name of its queue, and has not cached the queue yet. -/
inductive Creating (q : CStr) : Call → Prop
  | named (a : OpenArgs) (r : Reply) (hq : a.msgQueueName = q) :
      Creating q ⟨.openQueue a, [.redis a.isMember (.integer 0), .redis a.addName r]⟩
  | created (a : OpenArgs) (r : Reply) (now : Nat) (r' : Reply) (hq : a.msgQueueName = q) :
      Creating q ⟨.openQueue a, [.redis a.isMember (.integer 0), .redis a.addName r,
        .redis (a.writeMeta now) r']⟩

/-- An `OpenQueue` that has cached the client, and has not returned yet. -/
def Enters (q c : CStr) (call : Call) : Prop :=
  ∃ a now, call.op = .openQueue a ∧ Ev.locked now (.addClient q c) () ∈ call.evs

/-- The cached subscribers are those in Redis, but for one that the call in progress is adding, and
those who have subscribed, but for one whose call has not returned. -/
structure Copies (st : Store) (log : List Event) (cur : Option Call) (q : CStr)
    (clients : List CStr) : Prop where
  nodup : clients.Nodup
  distinct : (subscribers st q).Nodup
  text : ∀ f ∈ subscribers st q, ∃ c : CStr, c.bytes = f
  stored : ∀ c : CStr, c.bytes ∈ subscribers st q ↔ c ∈ clients ∨ ∃ call ∈ cur, Adds q c call
  subscribed : ∀ c, c ∈ clients ↔ Subscribed log q c ∨ ∃ call ∈ cur, Enters q c call
  adding : ∀ c, (∃ call ∈ cur, Adds q c call) → c ∉ clients

/-- Where a queue is: nowhere, in Redis only while it is being created, or in Redis and the cache.
-/
inductive Place (st : Store) (m : QueueMgr) (log : List Event) (cur : Option Call) (q : CStr) : Prop
  | absent (hname : q.bytes ∉ st.members allQueueName) (hcache : m.cache q = none)
      (hsubs : subscribers st q = []) (hlog : ∀ c, ¬ Subscribed log q c)
  | creating (hcreating : ∃ call ∈ cur, Creating q call) (hcache : m.cache q = none)
      (hsubs : subscribers st q = []) (hlog : ∀ c, ¬ Subscribed log q c)
  | cached (option : QueueOption) (clients : List CStr) (hname : q.bytes ∈ st.members allQueueName)
      (hcache : m.cache q = some (option, clients)) (htyped : Typed st q option.msgType)
      (hcopies : option.msgType = SUB2PUB → Copies st log cur q clients)

/-- The reply of a reading command is what the store holds. -/
def Current (st : Store) : Ev → Prop
  | .redis (.smembers k) r => r = .array ((st.members k).map .string)
  | .redis (.hgetall k) r => r = pairs (st.hash k)
  | _ => True

/-- What the call in progress has found out, and still holds. -/
structure Sound (st : Store) (m : QueueMgr) (call : Call) : Prop where
  served : Served call.op
  knows : ∀ ev ∈ call.evs, Knows st ev
  fresh : ∀ a r, call = ⟨.openQueue a, [.redis a.isMember (.integer 0)]⟩ ∨
      call = ⟨.openQueue a, [.redis a.isMember (.integer 0), .redis a.addName r]⟩ →
    st.hash (getQueueMetaName a.msgQueueName.bytes) = []
  wrote : ∀ a now r, call.op = .openQueue a → Ev.redis (a.writeMeta now) r ∈ call.evs →
    Typed st a.msgQueueName a.msgType
  missing : ∀ q c, Checks q c call → c.bytes ∉ subscribers st q
  pushes : ∀ now code q c ty buf,
    call.evs.head? = some (.locked now (.pushLock code) (.go q c ty buf)) →
      ∃ option, m.cache q = some (option, buf) ∧ option.msgType = ty
  pops : ∀ now code q c ty, call.evs.head? = some (.locked now (.popLock code) (.go q c ty)) →
    ∃ option clients, m.cache q = some (option, clients) ∧ option.msgType = ty ∧
      (ty = SUB2PUB → c ∈ clients)
  current : call.op = .loadQueueMeta → ∀ ev ∈ call.evs, Current st ev

/-- What holds in every state in which the runs of `subscribersPop` are; `cur` is the call in
progress. -/
structure Agreed (st : Store) (m : QueueMgr) (log : List Event) (cur : Option Call) : Prop where
  stored : Stored st
  names : ∀ n ∈ st.members allQueueName, ∃ q : CStr, q.bytes = n
  place : ∀ q, Place st m log cur q
  sound : ∀ call ∈ cur, Sound st m call
  delivered : PubSub log

section

variable {st st' : Store} {m m' : QueueMgr} {log log' : List Event} {cur cur' : Option Call}
variable {call : Call} {q : CStr}

/-- Nothing of this queue has changed. -/
theorem Place.keep (h : Place st m log cur q)
    (hname : q.bytes ∈ st'.members allQueueName ↔ q.bytes ∈ st.members allQueueName)
    (hsubs : subscribers st' q = subscribers st q) (htypes : ∀ ty, Typed st q ty → Typed st' q ty)
    (hcache : m'.cache q = m.cache q) (hlog : ∀ c, Subscribed log' q c ↔ Subscribed log q c)
    (hcreating : m.cache q = none → (∃ call ∈ cur, Creating q call) →
      ∃ call ∈ cur', Creating q call)
    (hadds : ∀ c, (∃ call ∈ cur', Adds q c call) ↔ ∃ call ∈ cur, Adds q c call)
    (henters : ∀ c, (∃ call ∈ cur', Enters q c call) ↔ ∃ call ∈ cur, Enters q c call) :
    Place st' m' log' cur' q := by
  cases h with
  | absent hn hc hs hl =>
    exact .absent (fun hmem => hn (hname.mp hmem)) (hcache.trans hc) (hsubs.trans hs)
      fun c hsub => hl c ((hlog c).mp hsub)
  | creating hcr hc hs hl =>
    exact .creating (hcreating hc hcr) (hcache.trans hc) (hsubs.trans hs)
      fun c hsub => hl c ((hlog c).mp hsub)
  | cached option clients hn hc ht hcopies =>
    refine .cached option clients (hname.mpr hn) (hcache.trans hc) (htypes _ ht) fun hty => ?_
    have hold := hcopies hty
    refine ⟨hold.nodup, ?_, ?_, fun c => ?_, fun c => ?_,
      fun c hc => hold.adding c ((hadds c).mp hc)⟩
    · rw [hsubs]
      exact hold.distinct
    · rw [hsubs]
      exact hold.text
    · rw [hsubs, hadds]
      exact hold.stored c
    · rw [hlog, henters]
      exact hold.subscribed c

theorem Agreed.of_cache (h : Agreed st m log cur) {option : QueueOption} {clients : List CStr}
    (hc : m.cache q = some (option, clients)) : q.bytes ∈ st.members allQueueName ∧
      Typed st q option.msgType ∧ (option.msgType = SUB2PUB → Copies st log cur q clients) := by
  cases h.place q with
  | absent _ hnone _ _ =>
    rw [hc] at hnone
    cases hnone
  | creating _ hnone _ _ =>
    rw [hc] at hnone
    cases hnone
  | cached option' clients' hn hc' ht hcopies =>
    cases hc.symm.trans hc'
    exact ⟨hn, ht, hcopies⟩

/-- A queue found in the set of names is cached. -/
theorem Agreed.cached_of_isMember {a : OpenArgs} {evs : List Ev}
    (h : Agreed st m log (some ⟨.openQueue a, evs⟩))
    (hmem : Ev.redis a.isMember (.integer 1) ∈ evs) :
    ∃ option clients, m.cache a.msgQueueName = some (option, clients) := by
  have hname : a.msgQueueName.bytes ∈ st.members allQueueName :=
    (h.sound _ rfl).knows _ hmem rfl rfl
  cases h.place a.msgQueueName with
  | absent hn _ _ _ => exact absurd hname hn
  | creating hcr _ _ _ =>
    obtain ⟨call, hcall, hcr⟩ := hcr
    cases hcall
    cases hcr with
    | named _ r hq => simp [OpenArgs.isMember, OpenArgs.addName] at hmem
    | created _ r now r' hq =>
      simp [OpenArgs.isMember, OpenArgs.addName, OpenArgs.writeMeta] at hmem
  | cached option clients _ hc _ _ => exact ⟨option, clients, hc⟩

end

end Domq.Mq
