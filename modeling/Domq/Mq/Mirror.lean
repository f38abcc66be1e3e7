import Domq.Mq.Registry
import Domq.Mq.Cache

/-!
# The cache mirrors Redis

Runs of one server, one call after the other, in which Redis executes every command and nobody else
writes to it. The server is started by `LoadQueues`, and then serves `OpenQueue` with any arguments,
`CloseQueue`, `PushMsg`, `PopMsg` and `LoadQueueMeta`.

* `Mirrors`: the cached names are the names in Redis, a cached queue has the options its metadata
  hold, and a session is on a registered queue.
* `OpenQueue` with a role that is neither publisher nor subscriber gets to an `assert` of a string,
  which never fails; it goes on as if a queue had been found. `RoleKnown` excludes that for a queue
  that is not registered.
* `mirrors_of_roleKnown`: in every run whose calls satisfy `RoleKnown` the cache mirrors Redis in
  every state. `unknown_role_cached`: otherwise a session code is issued for a queue that Redis does
  not know.
-/

namespace Domq.Mq

open Domq.Lib Domq.Redis

/-! ## What should hold -/

/-- The hash holds the options, as `CreatePublisher` writes them. -/
structure Holds (h : List (Bytes × Bytes)) (o : QueueOption) : Prop where
  msgType : hget h (ascii "type") = some (fmtInt o.msgType.toInt)
  duration : hget h (ascii "duration") = some (fmtInt o.duration.toInt)
  maxCount : hget h (ascii "maxcount") = some (fmtInt o.maxCount.toInt)

/-- **The cache mirrors Redis.** -/
structure Mirrors (m : QueueMgr) (st : Store) : Prop where
  names : ∀ n, n ∈ st.members allQueueName ↔
    ∃ q : CStr, q.bytes = n ∧ ∃ queue, m.name2Queue q = some queue
  options : ∀ q queue, m.name2Queue q = some queue →
    Holds (st.hash (getQueueMetaName q.bytes)) queue.option
  sessions : ∀ code item, m.msgQueueCode2QueueName code = some item →
    item.queueName.bytes ∈ st.members allQueueName

/-- A store as this server leaves it: sane, and with options in the metadata of every name. -/
structure Shaped (st : Store) : Prop extends Sane st where
  options : ∀ q : CStr, q.bytes ∈ st.members allQueueName →
    ∃ o, Holds (st.hash (getQueueMetaName q.bytes)) o

/-! ## The condition -/

/-- The calls the runs are made of. -/
def ServerCall : Op → Prop
  | .removeExpireMsgQueueCode _ => False
  | _ => True

/-- An `OpenQueue` has the role of a publisher or of a subscriber, or its queue is registered. -/
def RoleKnown (s : Server) (e : Invocation) : Prop :=
  ServerCall e.op ∧ Unrefused e ∧ ∀ a, e.op = .openQueue a → a.role = .other →
    a.msgQueueName.bytes ∈ s.redis.members allQueueName

/-! ## Options in hashes -/

namespace Holds

variable {h : List (Bytes × Bytes)} {o : QueueOption}

theorem visit (hh : Holds h o) (v : Bytes) : Holds (hset h (ascii "lastvisit") v) o := by
  have hne : ∀ {f}, f ≠ ascii "lastvisit" → hget (hset h (ascii "lastvisit") v) f = hget h f := by
    intro f hf
    rw [hget_hset, if_neg hf]
  exact ⟨(hne (by decide)).trans hh.msgType, (hne (by decide)).trans hh.duration,
    (hne (by decide)).trans hh.maxCount⟩

theorem metaFields (h : List (Bytes × Bytes)) (a : OpenArgs) (now : Nat) :
    Holds (hmset h (metaFields a now)) a.option := by
  have hget := hget_hmset_metaFields h a now
  exact ⟨hget (ascii "type", fmtInt a.msgType.toInt) (by simp [Mq.metaFields]),
    hget (ascii "duration", fmtInt a.duration.toInt) (by simp [Mq.metaFields]),
    hget (ascii "maxcount", fmtInt a.maxCount.toInt) (by simp [Mq.metaFields])⟩

/-- What is read back is what the hash holds. -/
theorem readMeta_option (hh : Holds h o) (queue : Queue) :
    (readMeta h queue).option.msgType = o.msgType ∧
    (readMeta h queue).option.duration = o.duration ∧
    (readMeta h queue).option.maxCount = o.maxCount := by
  simp only [readMeta, hh.msgType, hh.duration, hh.maxCount, Option.map_some, Option.getD_some,
    atol_fmtInt, Int32.ofInt_toInt, and_self]

theorem read (hh : Holds h o) (queue : Queue) : Holds h (readMeta h queue).option := by
  obtain ⟨hty, hdu, hmx⟩ := hh.readMeta_option queue
  exact ⟨by rw [hty]; exact hh.msgType, by rw [hdu]; exact hh.duration,
    by rw [hmx]; exact hh.maxCount⟩

end Holds

/-! ## Commands and sections -/

theorem Mirrors.cached {m : QueueMgr} {st : Store} (h : Mirrors m st) {q : CStr}
    (hq : q.bytes ∈ st.members allQueueName) : ∃ queue, m.name2Queue q = some queue := by
  obtain ⟨q', heq, hcached⟩ := (h.names q.bytes).mp hq
  rwa [CStr.bytes_inj.mp heq] at hcached

theorem Mirrors.registered {m : QueueMgr} {st : Store} (h : Mirrors m st) {q : CStr} {queue : Queue}
    (hq : m.name2Queue q = some queue) : q.bytes ∈ st.members allQueueName :=
  (h.names q.bytes).mpr ⟨q, rfl, queue, hq⟩

theorem Mirrors.shaped {m : QueueMgr} {st : Store} (h : Mirrors m st) (hst : Sane st) :
    Shaped st where
  toSane := hst
  options q hq := by
    obtain ⟨queue, hqueue⟩ := h.cached hq
    exact ⟨queue.option, h.options q queue hqueue⟩

/-- A tame command. -/
theorem Mirrors.exec {m : QueueMgr} {st : Store} {c : Cmd} (h : Mirrors m st) (hst : WellTyped st)
    (hc : Tame c) : Mirrors m (c.exec st).2 := by
  have hf := hst.fits hc.wellKeyed
  have hmem := hc.members hf allQueueName
  refine ⟨by rw [hmem]; exact h.names, fun q queue hq => ?_, by rw [hmem]; exact h.sessions⟩
  rcases hc.hash hf q.bytes with heq | ⟨v, heq⟩
  · rw [heq]
    exact h.options q queue hq
  · rw [heq]
    exact (h.options q queue hq).visit v

/-- The sections that keep the mirror, for names `names`. -/
def Keeping (names : List Bytes) : Section → Prop
  | .pushLock _ | .popLock _ | .closeQueue _ => True
  | .addClient q _ => q.bytes ∈ names
  | .openLock a => a.msgQueueName.bytes ∈ names
  | .swapQueues _ | .removeExpireMsgQueueCode _ => False

/-- Another manager with the same options and no sessions on other queues. -/
theorem Mirrors.congr {m m' : QueueMgr} {st : Store} (h : Mirrors m st)
    (ho : ∀ q, (m'.name2Queue q).map Queue.option = (m.name2Queue q).map Queue.option)
    (hs : ∀ code item, m'.msgQueueCode2QueueName code = some item →
      item.queueName.bytes ∈ st.members allQueueName) : Mirrors m' st := by
  have hsome : ∀ q, (∃ queue, m'.name2Queue q = some queue) ↔
      ∃ queue, m.name2Queue q = some queue := by
    intro q
    rw [← Option.isSome_iff_exists, ← Option.isSome_iff_exists, ← Option.isSome_map
      (f := Queue.option), ho q, Option.isSome_map]
  refine ⟨fun n => ?_, fun q queue hq => ?_, hs⟩
  · rw [h.names n]
    exact exists_congr fun q => and_congr_right fun _ => (hsome q).symm
  · have hmap := ho q
    rw [hq] at hmap
    obtain ⟨queue', hq', heq⟩ := Option.map_eq_some_iff.mp hmap.symm
    rw [← heq]
    exact h.options q queue' hq'

/-- A lookup of a session keeps the mirror. -/
theorem Mirrors.touch {m : QueueMgr} {st : Store} (h : Mirrors m st) {now : Nat} {code : Bytes}
    {item : CodeItem} {queue : Queue} (hi : m.msgQueueCode2QueueName code = some item)
    (hq : m.name2Queue item.queueName = some queue) :
    Mirrors (m.touch now code item queue) st := by
  refine h.congr (fun q => ?_) fun code' item' hi' => ?_
  · rw [QueueMgr.touch_name2Queue]
    by_cases hc : q = item.queueName
    · subst hc
      rw [Function.update_self, hq]
      rfl
    · rw [Function.update_of_ne hc]
  · have hmap := m.touch_session now code item queue hi code'
    rw [hi'] at hmap
    obtain ⟨item₀, hi₀, heq⟩ := Option.map_eq_some_iff.mp hmap.symm
    obtain ⟨hname, -⟩ := Prod.mk.inj heq
    rw [← hname]
    exact h.sessions code' item₀ hi₀

/-- **A section.** -/
theorem Mirrors.locked {m m' : QueueMgr} {st : Store} {s : Section} {now : Nat} {uuid : Uuid}
    {r : s.Res} (h : Mirrors m st) (hs : Keeping (st.members allQueueName) s)
    (hrun : s.run now uuid m = some (r, m')) : Mirrors m' st := by
  cases s with
  | pushLock code =>
    obtain rfl : (m.pushLock now code).2 = m' := congrArg Prod.snd (Option.some.inj hrun)
    exact QueueMgr.pushLock_keeps now code m (I := fun m => Mirrors m st) h
      fun _ _ hi hq => h.touch hi hq
  | popLock code =>
    obtain rfl : (m.popLock now code).2 = m' := congrArg Prod.snd (Option.some.inj hrun)
    exact QueueMgr.popLock_keeps now code m (I := fun m => Mirrors m st) h
      fun _ _ hi hq => h.touch hi hq
  | addClient q c =>
    cases hrun
    obtain ⟨queue, hq⟩ := h.cached hs
    refine h.congr (fun q' => ?_) h.sessions
    simp only [QueueMgr.addClient]
    by_cases hc : q' = q
    · subst hc
      rw [Function.update_self, hq]
      rfl
    · rw [Function.update_of_ne hc]
  | openLock a =>
    cases hrun
    obtain ⟨queue, hq⟩ := h.cached hs
    refine h.congr (fun q' => ?_) fun code item hi => ?_
    · simp only
      by_cases hc : q' = a.msgQueueName
      · subst hc
        rw [Function.update_self, hq]
        rfl
      · rw [Function.update_of_ne hc]
    · simp only at hi
      by_cases hc : code = genMsgQueueCode uuid
      · subst hc
        rw [Function.update_self] at hi
        cases hi
        exact hs
      · rw [Function.update_of_ne hc] at hi
        exact h.sessions code item hi
  | closeQueue code =>
    simp only [Section.run, Option.some.injEq, QueueMgr.closeQueue] at hrun
    split at hrun
    · cases hrun
      exact h
    · cases hrun
      refine h.congr (fun _ => rfl) fun code' item' hi => ?_
      simp only at hi
      by_cases hc : code' = code
      · subst hc
        rw [Function.update_self] at hi
        cases hi
      · rw [Function.update_of_ne hc] at hi
        exact h.sessions code' item' hi
  | swapQueues n => exact hs.elim
  | removeExpireMsgQueueCode e => exact hs.elim

/-! ## `OpenQueue` on a connection without unread replies -/

section Open

variable {clock : Nat → Nat} {uuid : Uuid} {a : OpenArgs} {x : Int} {w w' : Talk (Nat × Store)}

theorem quiet_sismember (hst : WellTyped w.peer.2) (q : CStr) :
    quiet (.sismember allQueueName q.bytes) w.peer =
      (some (.integer (if q.bytes ∈ w.peer.2.members allQueueName then 1 else 0)),
        w.peer.1 + 1, w.peer.2) := by
  rw [quiet_reading (fun _ => rfl),
    Cmd.exec_reply (hst.fits (Tame.sismember q.bytes).wellKeyed)]
  rfl

/-- A publisher finds the queue, or creates it, or is told that there is none. -/
theorem createPublisher_quiet (hw : w.Idle) (hst : WellTyped w.peer.2)
    (h : (createPublisher a).eval (Talk.exec quiet clock uuid) w = some (x, w')) :
    w'.mgr = w.mgr ∧
    (a.msgQueueName.bytes ∈ w.peer.2.members allQueueName ∧ w'.peer.2 = w.peer.2 ∨
      a.msgQueueName.bytes ∉ w.peer.2.members allQueueName ∧ x = SUCCESS ∧
        (∃ now, w'.peer.2 = createStore a now w.peer.2) ∨
      x ≠ SUCCESS ∧ w'.peer.2 = w.peer.2) := by
  obtain ⟨r, w₁, hr, hidle, hmgr, -, h⟩ := hw.command h
  rw [quiet_sismember hst] at hr
  obtain ⟨rfl, hpeer⟩ := Prod.mk.inj hr
  have hstore : w₁.peer.2 = w.peer.2 := by rw [hpeer]
  rw [← hmgr]
  by_cases hq : a.msgQueueName.bytes ∈ w.peer.2.members allQueueName
  · rw [if_pos hq] at h
    cases h
    exact ⟨rfl, .inl ⟨hq, hstore⟩⟩
  · rw [if_neg hq] at h
    by_cases hcreate : a.create &&& 1 ≠ 0
    · replace h : Prog.eval _ (if a.create &&& 1 ≠ 0 then _ else _) w₁ = some (x, w') := h
      rw [if_pos hcreate] at h
      obtain ⟨now, r₁, r₂, w₂, rfl, hr₂, hu, hmgr₂, h⟩ := hidle.askTwoTime h
      obtain ⟨rfl, hpeer₂⟩ := Prod.mk.inj hr₂
      replace h : Prog.eval _ (getReply >>= _) w₂ = some (x, w') := h
      rw [Talk.eval_getReply_unread _ hu] at h
      cases h
      refine ⟨hmgr₂, .inr (.inl ⟨hq, rfl, now, ?_⟩)⟩
      show w₂.peer.2 = _
      rw [hpeer₂, createStore, ← hstore]
      rfl
    · replace h : Prog.eval _ (if a.create &&& 1 ≠ 0 then _ else _) w₁ = some (x, w') := h
      rw [if_neg hcreate] at h
      cases h
      exact ⟨rfl, .inr (.inr ⟨by decide, hstore⟩)⟩

/-- A subscriber is told that there is no queue. -/
theorem createSubscriber_missing (hw : w.Idle) (hst : WellTyped w.peer.2)
    (hq : a.msgQueueName.bytes ∉ w.peer.2.members allQueueName)
    (h : (createSubscriber a).eval (Talk.exec quiet clock uuid) w = some (x, w')) :
    w'.mgr = w.mgr ∧ x ≠ SUCCESS ∧ w'.peer.2 = w.peer.2 := by
  obtain ⟨r₁, r₂, w₁, hr₁, hr₂, hu, hmgr, -, -, h⟩ := hw.askTwo h
  rw [quiet_sismember hst, if_neg hq] at hr₁ hr₂
  rw [quiet_reading (fun _ => rfl)] at hr₂
  obtain ⟨-, hpeer⟩ := Prod.mk.inj hr₂
  subst hr₁
  replace h : Prog.eval _ (getReply >>= fun _ => return NO_EXIST) w₁ = some (x, w') := h
  rw [Talk.eval_getReply_unread _ hu] at h
  cases h
  refine ⟨hmgr, by decide, ?_⟩
  show w₁.peer.2 = _
  rw [hpeer]

end Open

/-- The queue is created in Redis and then cached. -/
theorem Mirrors.create {m : QueueMgr} {st : Store} (h : Mirrors m st) (hst : WellTyped st)
    {a : OpenArgs} (hq : a.msgQueueName.bytes ∉ st.members allQueueName) (now now' : Nat)
    (uuid : Uuid) : Mirrors (m.openLock now' uuid a).2 (createStore a now st) := by
  have hmem := members_createStore a now hst
  have hnone : m.name2Queue a.msgQueueName = none := by
    cases hn : m.name2Queue a.msgQueueName with
    | none => rfl
    | some queue => exact absurd (h.registered hn) hq
  have hself : (m.openLock now' uuid a).2.name2Queue a.msgQueueName =
      some { Queue.empty with option := a.option, msgCount := 0, lastVisit := now' } := by
    simp only [QueueMgr.openLock, Function.update_self, hnone]
  have hother : ∀ q, q ≠ a.msgQueueName →
      (m.openLock now' uuid a).2.name2Queue q = m.name2Queue q := by
    intro q hne
    exact Function.update_of_ne hne _ _
  refine ⟨fun n => ?_, fun q queue hqueue => ?_, fun code item hi => ?_⟩
  · rw [hmem, mem_sadd, h.names n]
    constructor
    · rintro (⟨q, rfl, queue, hqueue⟩ | rfl)
      · have hne : q ≠ a.msgQueueName := by
          rintro rfl
          exact hq (h.registered hqueue)
        exact ⟨q, rfl, queue, (hother q hne).trans hqueue⟩
      · exact ⟨a.msgQueueName, rfl, _, hself⟩
    · rintro ⟨q, rfl, queue, hqueue⟩
      by_cases hne : q = a.msgQueueName
      · exact .inr (congrArg CStr.bytes hne)
      · exact .inl ⟨q, rfl, queue, (hother q hne).symm.trans hqueue⟩
  · rw [hash_createStore a now hst]
    by_cases hne : q = a.msgQueueName
    · subst hne
      cases hself.symm.trans hqueue
      rw [if_pos rfl]
      exact .metaFields _ a now
    · rw [if_neg (fun heq => hne (CStr.bytes_inj.mp heq.symm))]
      exact h.options q queue ((hother q hne).symm.trans hqueue)
  · rw [hmem, mem_sadd]
    simp only [QueueMgr.openLock] at hi
    by_cases hc : code = genMsgQueueCode uuid
    · subst hc
      rw [Function.update_self] at hi
      cases hi
      exact .inr rfl
    · rw [Function.update_of_ne hc] at hi
      exact .inl (h.sessions code item hi)

/-- The table of the store is loaded. -/
theorem Shaped.mirrors {m : QueueMgr} {st : Store} (h : Shaped st) {table : CStr → Option Queue}
    (ht : TableOf st table) (hs : ∀ code item, m.msgQueueCode2QueueName code = some item →
      item.queueName.bytes ∈ st.members allQueueName) :
    Mirrors { m with name2Queue := table } st := by
  refine ⟨fun n => ?_, fun q queue hq => ?_, hs⟩
  · constructor
    · intro hn
      obtain ⟨q, rfl⟩ := h.names n hn
      obtain ⟨queue, hq, -⟩ := ht.member q hn
      exact ⟨q, rfl, queue, hq⟩
    · rintro ⟨q, rfl, queue, hq⟩
      by_contra hn
      cases (ht.other q hn).symm.trans hq
  · have hn : q.bytes ∈ st.members allQueueName := by
      by_contra hn
      cases (ht.other q hn).symm.trans hq
    obtain ⟨queue', hq', hload, -⟩ := ht.member q hn
    cases hq.symm.trans hq'
    obtain ⟨o, ho⟩ := h.options q hn
    rw [hload]
    exact ho.read Queue.empty

/-! ## Every run -/

/-- What holds between two calls. -/
structure Mirroring (s : Server) : Prop where
  sane : Sane s.redis
  mirrors : Mirrors s.mgr s.redis
  unread : ∀ t, s.unread t = []

section Step

variable {s : Server} {e : Invocation} {x : Ret} {w : Talk (Nat × Store)}

/-- A call of tame commands and of sections that keep the mirror. -/
theorem Mirrors.performs {α : Type} {p : QProg α} {x : α} {clock : Nat → Nat} {uuid : Uuid}
    {w w' : Talk (Nat × Store)} (hst : Sane w.peer.2) (h : Mirrors w.mgr w.peer.2)
    (hp : Performs Tame (Keeping (w.peer.2.members allQueueName)) p)
    (he : p.eval (Talk.exec quiet clock uuid) w = some (x, w')) :
    Sane w'.peer.2 ∧ Mirrors w'.mgr w'.peer.2 ∧
      w'.peer.2.members allQueueName = w.peer.2.members allQueueName := by
  refine hp.eval (I := fun st m => Sane st ∧ Mirrors m st ∧
    st.members allQueueName = w.peer.2.members allQueueName) ?_ ?_ he ⟨hst, h, rfl⟩
  · rintro c st m hc ⟨hst, h, hmem⟩
    exact ⟨hst.exec hc, h.exec hst.typed hc,
      (hc.members (hst.typed.fits hc.wellKeyed) _).trans hmem⟩
  · rintro s now uuid st m r m' hs ⟨hst, h, hmem⟩ hrun
    exact ⟨hst, h.locked (hmem ▸ hs) hrun, hmem⟩

/-- `OpenQueue`. -/
theorem Mirroring.openQueue {a : OpenArgs} {clock : Nat → Nat} {uuid : Uuid} {x : Ret}
    {w w' : Talk (Nat × Store)} (hst : Sane w.peer.2) (h : Mirrors w.mgr w.peer.2) (hw : w.Idle)
    (hrole : a.role = .other → a.msgQueueName.bytes ∈ w.peer.2.members allQueueName)
    (he : (openQueue a).eval (Talk.exec quiet clock uuid) w = some (x, w')) :
    Sane w'.peer.2 ∧ Mirrors w'.mgr w'.peer.2 := by
  obtain ⟨w₁, he, hw'⟩ := openQueue_eval he
  -- the locked section, once the queue is registered
  have hlock : Sane w₁.peer.2 → Mirrors w₁.mgr w₁.peer.2 → (x.1 = SUCCESS →
      a.msgQueueName.bytes ∈ w₁.peer.2.members allQueueName) →
      Sane w'.peer.2 ∧ Mirrors w'.mgr w'.peer.2 := by
    intro hst₁ h₁ hreg
    rw [hw']
    split
    · rename_i hx
      exact ⟨hst₁, h₁.locked (s := .openLock a) (hreg hx) rfl⟩
    · exact ⟨hst₁, h₁⟩
  by_cases hpub : a.role = .publisher
  · have hcreate : createProg a = createPublisher a := by
      unfold createProg
      rw [hpub]
    rw [hcreate] at he
    obtain ⟨hmgr, ⟨hq, hstore⟩ | ⟨hq, hx, now, hstore⟩ | ⟨hx, hstore⟩⟩ :=
      createPublisher_quiet hw hst.typed he
    · refine hlock (by rw [hstore]; exact hst) (by rw [hmgr, hstore]; exact h) fun _ => ?_
      rw [hstore]
      exact hq
    · rw [hw', if_pos hx]
      simp only
      rw [hstore, hmgr]
      exact ⟨hst.create a now, h.create hst.typed hq now _ _⟩
    · exact hlock (by rw [hstore]; exact hst) (by rw [hmgr, hstore]; exact h) fun h => absurd h hx
  · by_cases hq : a.msgQueueName.bytes ∈ w.peer.2.members allQueueName
    · obtain ⟨hst₁, h₁, hmem⟩ := h.performs hst (createProg_performs hpub hq) he
      exact hlock hst₁ h₁ fun _ => hmem ▸ hq
    · have hcreate : createProg a = createSubscriber a := by
        unfold createProg
        cases hr : a.role with
        | publisher => exact absurd hr hpub
        | subscriber => rfl
        | other => exact absurd (hrole hr) hq
      rw [hcreate] at he
      obtain ⟨hmgr, hx, hstore⟩ := createSubscriber_missing hw hst.typed hq he
      exact hlock (by rw [hstore]; exact hst) (by rw [hmgr, hstore]; exact h) fun h => absurd h hx

/-- **One call.** -/
theorem Mirroring.call (h : Mirroring s) (hg : RoleKnown s e)
    (he : (callProg e.op).eval (Talk.exec quiet e.clock e.uuid) (.idle s.mgr (0, s.redis)) =
      some (x, w)) : Sane w.peer.2 ∧ Mirrors w.mgr w.peer.2 ∧ w.Idle := by
  obtain ⟨hcall, -, hrole⟩ := hg
  cases hop : e.op with
  | openQueue a =>
    rw [hop] at he
    obtain ⟨hst, hm⟩ := Mirroring.openQueue (w := .idle s.mgr (0, s.redis)) h.sane h.mirrors rfl
      (hrole a hop) he
    have hidle := Agrees.idle (P := refusing fun _ => none) (openQueue_agrees a) he rfl
    exact ⟨hst, hm, hidle⟩
  | closeQueue code =>
    rw [hop] at he
    have hp : Performs Tame (Keeping (s.redis.members allQueueName))
        (callProg (.closeQueue code)) :=
      .locked trivial fun _ => trivial
    obtain ⟨hst, hm, -⟩ := Mirrors.performs (w := .idle s.mgr (0, s.redis)) h.sane h.mirrors hp he
    cases he
    exact ⟨hst, hm, rfl⟩
  | pushMsg code data =>
    rw [hop] at he
    have hp : Performs Tame (Keeping (s.redis.members allQueueName))
        (callProg (.pushMsg code data)) :=
      (pushMsg_performs trivial).bind fun _ => trivial
    obtain ⟨hst, hm, -⟩ := Mirrors.performs (w := .idle s.mgr (0, s.redis)) h.sane h.mirrors hp he
    rw [callProg, Prog.eval_bind] at he
    obtain ⟨⟨ret, w₁⟩, hpush, he⟩ := Option.bind_eq_some_iff.mp he
    cases he
    exact ⟨hst, hm, (pushMsg_quiet h.sane.typed hpush).1⟩
  | popMsg code =>
    rw [hop] at he
    have hp : Performs Tame (Keeping (s.redis.members allQueueName)) (callProg (.popMsg code)) :=
      (popMsg_performs trivial).mono fun _ hc => hc.tame
    obtain ⟨hst, hm, -⟩ := Mirrors.performs (w := .idle s.mgr (0, s.redis)) h.sane h.mirrors hp he
    have hidle := Agrees.idle (P := refusing fun _ => none) (popMsg_agrees code) he rfl
    exact ⟨hst, hm, hidle⟩
  | loadQueueMeta =>
    rw [hop] at he
    obtain ⟨table, ht, hidle, hstore, hmgr⟩ := loadQueueMeta_quiet h.sane he
    rw [hstore, hmgr]
    exact ⟨h.sane, (h.mirrors.shaped h.sane).mirrors ht h.mirrors.sessions, hidle⟩
  | removeExpireMsgQueueCode t =>
    rw [hop] at hcall
    exact hcall.elim

theorem Mirroring.step {s' : Server} (h : Mirroring s) (hg : RoleKnown s e)
    (hs : s.step e = some s') : Mirroring s' := by
  obtain ⟨x, w, he, rfl, hunread⟩ := Server.step_quiet hg.2.1 h.unread hs
  obtain ⟨hst, hm, hidle⟩ := h.call hg he
  exact ⟨hst, hm, hunread hidle⟩

/-- The start: a manager without queues and sessions loads the store. -/
theorem Mirroring.start {L : Int32} {st : Store} (hst : Shaped st) (hop : e.op = .loadQueueMeta)
    (hr : Unrefused e) (hs : (Server.boot (QueueMgr.init L) st).step e = some s) :
    Mirroring s := by
  obtain ⟨x, w, he, rfl, hunread⟩ := Server.step_quiet hr (fun _ => rfl) hs
  rw [hop] at he
  obtain ⟨table, ht, hidle, hstore, hmgr⟩ := loadQueueMeta_quiet hst.toSane he
  refine ⟨?_, ?_, hunread hidle⟩
  · show Sane w.peer.2
    rw [hstore]
    exact hst.toSane
  · show Mirrors w.mgr w.peer.2
    rw [hstore, hmgr]
    exact hst.mirrors ht fun code item hi => (by cases hi)

end Step

/-- **The cache mirrors Redis** after every call of every run of a server that was started by
`LoadQueues`, if no call opens a queue that is not registered with a role that is neither publisher
nor subscriber. The store is then again one on which the server can be started. -/
theorem mirrors_of_roleKnown (L : Int32) (st : Store) (hst : Shaped st) (e₀ : Invocation)
    (hop : e₀.op = .loadQueueMeta) (hr : Unrefused e₀) (s₀ s : Server)
    (h₀ : (Server.boot (QueueMgr.init L) st).step e₀ = some s₀)
    (hs : Machine.Reach Server.step RoleKnown s₀ s) : Mirrors s.mgr s.redis ∧ Shaped s.redis := by
  have h : Mirroring s := hs.inv (Mirroring.start hst hop hr h₀) fun h hg hs => h.step hg hs
  exact ⟨h.mirrors, h.mirrors.shaped h.sane⟩

/-! ## Two runs -/

/-- `LoadQueueMeta`. -/
def loadCall : Invocation := ⟨0, .loadQueueMeta, fun _ => 100, Uuid.ofByte 0, fun _ => none⟩

theorem shaped_empty : Shaped fun _ => none where
  typed := wellTyped_empty
  nodup := List.nodup_nil
  names n hn := by cases hn
  hashes q := ⟨List.nodup_nil, fun f hf => (by cases hf)⟩
  complete q hq := by cases hq
  options q hq := by cases hq

/-- A publisher creates the queue. -/
theorem mirrors_publisher : ∃ s₀ s,
    (Server.boot (QueueMgr.init 1000) fun _ => none).step loadCall = some s₀ ∧
    s₀.step (openCall .publisher fun _ => none) = some s ∧
    s.redis.members allQueueName = [ascii "q"] ∧ Mirrors s.mgr s.redis := by
  refine ⟨_, _, rfl, rfl, rfl, ?_⟩
  refine (mirrors_of_roleKnown 1000 (fun _ => none) shaped_empty loadCall rfl rfl _ _ rfl
    (.step (openCall .publisher fun _ => none) .init ⟨trivial, rfl, ?_⟩ rfl)).1
  rintro a ⟨⟩ hrole
  cases hrole

/-- With another role, the queue is cached and has a session, and Redis does not know it. -/
theorem unknown_role_cached : ¬ ∀ (L : Int32) (st : Store), Shaped st → ∀ e₀ : Invocation,
    e₀.op = .loadQueueMeta → Unrefused e₀ → ∀ s₀ s : Server,
    (Server.boot (QueueMgr.init L) st).step e₀ = some s₀ →
    Machine.Reach Server.step (fun _ e => ServerCall e.op ∧ Unrefused e) s₀ s →
    Mirrors s.mgr s.redis := by
  intro h
  have hm := h 1000 (fun _ => none) shaped_empty loadCall rfl rfl _ _ rfl
    (.step (openCall .other fun _ => none) .init ⟨trivial, rfl⟩ rfl)
  have hreg := hm.sessions (genMsgQueueCode (Uuid.ofByte 0)) _ rfl
  cases hreg

end Domq.Mq
