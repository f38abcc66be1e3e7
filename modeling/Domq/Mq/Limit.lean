import Domq.Mq.Mirror

/-!
# The message limit

Runs of `PushMsg`, `PopMsg` and `LoadQueueMeta` on one server, one call after the other, in which
Redis executes every command and nobody else writes to it. A queue `q` is `PEER2PEER`, and its
metadata say `maxcount = M > 0`.

`PushMsg` compares `maxcount` with `Queue::msgCount`, which `LoadQueues` sets to the length of the
list and neither `PushMsg` nor `PopMsg` changes. So what it tests is the length at the last load
(`loadedLength`), as an `int`.

* `Limited`: `PushMsg` returned `MSG_LIMIT` exactly when the list held `M` messages, a message was
  accepted whenever it held less, and the list is no longer than `M` or its length at the start.
* `SameSide` is the condition: where a message is pushed, the length is on the same side of `M` as
  the length at the last load.
* `limited_of_sameSide`: in every run whose pushes satisfy it, `Limited` holds in every state.
  `limit_not_enforced`: two messages are accepted into a queue of one.
-/

namespace Domq.Mq

open Domq.Lib Domq.Redis

/-! ## What should hold -/

/-- The session is on the queue. -/
def OnQueue (m : QueueMgr) (code : Bytes) (q : CStr) : Prop :=
  ∃ item, m.msgQueueCode2QueueName code = some item ∧ item.queueName = q

/-- How many messages the list of a queue holds. -/
def listLength (st : Store) (q : CStr) : Nat := (st.list (getQueueMsgName q.bytes)).length

/-- **The message limit is enforced**: `PushMsg` refuses a message exactly when the list is full,
and otherwise appends it; and the list has not grown beyond `M`, or beyond its length at the
start. -/
structure Limited (q : CStr) (M : Int32) (start : Nat) (s : Server) : Prop where
  pushes : ∀ d ∈ s.log, ∀ code data, d.op = .pushMsg code data → OnQueue d.mgr code q →
    (d.ret.1 = MSG_LIMIT ↔ M.toInt ≤ listLength d.before q) ∧
    ((listLength d.before q : Int) < M.toInt → d.ret.1 = SUCCESS ∧
      d.after.list (getQueueMsgName q.bytes) = d.before.list (getQueueMsgName q.bytes) ++ [data])
  bound : (listLength s.redis q : Int) ≤ max M.toInt start

/-- A store in which `q` is registered as a `PEER2PEER` queue with this `maxcount`. -/
structure HasLimit (st : Store) (q : CStr) (M : Int32) : Prop where
  registered : q.bytes ∈ st.members allQueueName
  holds : ∃ o, Holds (st.hash (getQueueMetaName q.bytes)) o ∧ o.msgType = PEER2PEER ∧
    o.maxCount = M

/-! ## The condition -/

/-- The calls the runs are made of. -/
def MessageCall : Op → Prop
  | .pushMsg _ _ | .popMsg _ | .loadQueueMeta => True
  | _ => False

/-- The length of the list when the metadata were last loaded. -/
def loadedLength (s : Server) (q : CStr) : Nat :=
  ((s.log.reverse.find? fun d => d.op = .loadQueueMeta).map fun d => listLength d.before q).getD 0

/-- Where a message is pushed to `q`, the length of the list is on the same side of `M` as the
length at the last load, taken as an `int`. -/
def SameSide (q : CStr) (M : Int32) (s : Server) (e : Invocation) : Prop :=
  MessageCall e.op ∧ Unrefused e ∧ ∀ code data, e.op = .pushMsg code data → OnQueue s.mgr code q →
    (M ≤ Int32.ofNat (loadedLength s q) ↔ M.toInt ≤ listLength s.redis q)

/-! ## The last load -/

theorem loadedLength_returned (s : Server) (e : Invocation) (x : Ret) (w : Talk (Nat × Store))
    (q : CStr) : loadedLength (s.returned e x w) q =
      if e.op = .loadQueueMeta then listLength s.redis q else loadedLength s q := by
  unfold loadedLength
  show (((s.log ++ [_]).reverse.find? _).map _).getD 0 = _
  rw [List.reverse_concat, List.find?_cons]
  by_cases hop : e.op = .loadQueueMeta
  · rw [if_pos hop]
    simp only [hop, decide_true]
    rfl
  · rw [if_neg hop]
    simp only [hop, decide_false]

/-- The `int` of a `size_t` that holds a length. -/
theorem ofNat_toSize (n : Nat) : Int32.ofNat (toSize n) = Int32.ofNat n := by
  have hsize : toSize n = n % 2 ^ 64 := by
    unfold toSize
    omega
  rw [hsize, ← Int32.ofBitVec_ofNat, ← Int32.ofBitVec_ofNat]
  congr 1
  apply BitVec.eq_of_toNat_eq
  rw [BitVec.toNat_ofNat, BitVec.toNat_ofNat]
  exact Nat.mod_mod_of_dvd n (by decide)

/-! ## The cached queue -/

/-- `q` is cached as a `PEER2PEER` queue with this `maxcount` and this count. -/
def CachedAs (m : QueueMgr) (q : CStr) (M : Int32) (count : Nat) : Prop :=
  ∃ queue, m.name2Queue q = some queue ∧ queue.option.msgType = PEER2PEER ∧
    queue.option.maxCount = M ∧ queue.msgCount = count

/-- The sections of `PushMsg` and `PopMsg`. -/
def IsLookup : Section → Prop
  | .pushLock _ | .popLock _ => True
  | _ => False

variable {q : CStr} {M : Int32} {count : Nat}

theorem CachedAs.touch {m : QueueMgr} (h : CachedAs m q M count) {now : Nat} {code : Bytes}
    {item : CodeItem} {queue : Queue} (hq : m.name2Queue item.queueName = some queue) :
    CachedAs (m.touch now code item queue) q M count := by
  obtain ⟨queue', hq', hrest⟩ := h
  unfold CachedAs
  rw [QueueMgr.touch_name2Queue]
  by_cases hc : q = item.queueName
  · subst hc
    cases hq.symm.trans hq'
    rw [Function.update_self]
    exact ⟨_, rfl, hrest⟩
  · rw [Function.update_of_ne hc]
    exact ⟨queue', hq', hrest⟩

/-- A lookup changes neither options nor count. -/
theorem CachedAs.locked {m m' : QueueMgr} {s : Section} {now : Nat} {uuid : Uuid} {r : s.Res}
    (h : CachedAs m q M count) (hs : IsLookup s) (hrun : s.run now uuid m = some (r, m')) :
    CachedAs m' q M count := by
  cases s with
  | pushLock code =>
    obtain rfl : (m.pushLock now code).2 = m' := congrArg Prod.snd (Option.some.inj hrun)
    exact QueueMgr.pushLock_keeps now code m (I := fun m => CachedAs m q M count) h
      fun _ _ _ hq => h.touch hq
  | popLock code =>
    obtain rfl : (m.popLock now code).2 = m' := congrArg Prod.snd (Option.some.inj hrun)
    exact QueueMgr.popLock_keeps now code m (I := fun m => CachedAs m q M count) h
      fun _ _ _ hq => h.touch hq
  | _ => exact hs.elim

/-- The test of `PushMsg` on the cached queue. -/
theorem CachedAs.full_iff {m : QueueMgr} {queue : Queue} (h : CachedAs m q M (toSize count))
    (hq : m.name2Queue q = some queue) (hM : 0 < M) :
    QueueMgr.full queue ↔ M ≤ Int32.ofNat count := by
  obtain ⟨queue', hq', -, hmax, hcount⟩ := h
  cases hq.symm.trans hq'
  unfold QueueMgr.full
  rw [hmax, hcount, ofNat_toSize]
  exact and_iff_right hM

/-- The queue as it is loaded. -/
theorem HasLimit.cachedAs {st : Store} (h : HasLimit st q M) {table : CStr → Option Queue}
    (ht : TableOf st table) (m : QueueMgr) :
    CachedAs { m with name2Queue := table } q M (toSize (listLength st q)) := by
  obtain ⟨o, ho, hty, hmax⟩ := h.holds
  obtain ⟨queue, hq, hoption, hcount, -⟩ := ht.member q h.registered
  obtain ⟨hty', -, hmax'⟩ := ho.readMeta_option Queue.empty
  exact ⟨queue, hq, by rw [hoption, hty', hty], by rw [hoption, hmax', hmax], hcount⟩

/-! ## Every run -/

/-- What holds between two calls. -/
structure Limiting (q : CStr) (M : Int32) (start : Nat) (s : Server) : Prop where
  sane : Sane s.redis
  limit : HasLimit s.redis q M
  cached : CachedAs s.mgr q M (toSize (loadedLength s q))
  unread : ∀ t, s.unread t = []
  limited : Limited q M start s

theorem HasLimit.exec {st : Store} {c : Cmd} (h : HasLimit st q M) (hst : WellTyped st)
    (hc : Tame c) : HasLimit (c.exec st).2 q M := by
  have hf := hst.fits hc.wellKeyed
  obtain ⟨o, ho, hty, hmax⟩ := h.holds
  refine ⟨by rw [hc.members hf]; exact h.registered, o, ?_, hty, hmax⟩
  rcases hc.hash hf q.bytes with heq | ⟨v, heq⟩
  · rw [heq]
    exact ho
  · rw [heq]
    exact ho.visit v

/-- A call of tame commands and lookups. -/
theorem HasLimit.performs {α : Type} {p : QProg α} {x : α} {clock : Nat → Nat} {uuid : Uuid}
    {w w' : Talk (Nat × Store)} (hst : Sane w.peer.2) (h : HasLimit w.peer.2 q M)
    (hc : CachedAs w.mgr q M count) (hp : Performs Tame IsLookup p)
    (he : p.eval (Talk.exec quiet clock uuid) w = some (x, w')) :
    Sane w'.peer.2 ∧ HasLimit w'.peer.2 q M ∧ CachedAs w'.mgr q M count := by
  refine hp.eval (I := fun st m => Sane st ∧ HasLimit st q M ∧ CachedAs m q M count) ?_ ?_ he
    ⟨hst, h, hc⟩
  · rintro c st m hc ⟨hst, h, hcached⟩
    exact ⟨hst.exec hc, h.exec hst.typed hc, hcached⟩
  · rintro s now uuid st m r m' hs ⟨hst, h, hcached⟩ hrun
    exact ⟨hst, h, hcached.locked hs hrun⟩

/-- `PopMsg` makes no list longer. -/
theorem popMsg_shortens {code : Bytes} {x : Ret} {clock : Nat → Nat} {uuid : Uuid}
    {w w' : Talk (Nat × Store)} (hst : WellTyped w.peer.2)
    (he : (popMsg code).eval (Talk.exec quiet clock uuid) w = some (x, w')) :
    listLength w'.peer.2 q ≤ listLength w.peer.2 q := by
  have hp : Performs Popping (fun _ => True) (popMsg code) := popMsg_performs trivial
  refine (hp.eval (I := fun st _ => WellTyped st ∧ listLength st q ≤ listLength w.peer.2 q) ?_
    (fun _ h _ => h) he ⟨hst, le_rfl⟩).2
  rintro c st m hc ⟨hst, hle⟩
  refine ⟨hst.exec hc.tame.wellKeyed, le_trans ?_ hle⟩
  unfold listLength
  rw [Cmd.list_exec (hst.fits hc.tame.wellKeyed)]
  cases hc with
  | lpop hk =>
    simp only [Cmd.onList]
    split
    · rw [List.length_tail]
      exact Nat.sub_le _ _
    · exact le_rfl
  | visitSub q' f v => exact le_rfl
  | visit q' v => exact le_rfl

/-- A message for another queue leaves the list alone. -/
theorem Delivered.other {q' : CStr} {ty : Int32} {buf : List CStr} {data : Bytes} {st st' : Store}
    (h : Delivered q' ty buf data st st') (hne : q' ≠ q) :
    st'.list (getQueueMsgName q.bytes) = st.list (getQueueMsgName q.bytes) := by
  unfold Delivered at h
  split at h
  · exact h.2 _ fun c _ => getQueueMsgName_ne_subName _ _ _
  · refine h.2 _ fun heq => hne ?_
    exact (CStr.bytes_inj.mp (getQueueMsgName_injective heq)).symm

/-- **A push.** -/
theorem pushMsg_limited {m : QueueMgr} {st : Store} {code data : Bytes} {x : Int}
    {clock : Nat → Nat} {uuid : Uuid} {w : Talk (Nat × Store)} {start : Nat} (hM : 0 < M)
    (hst : WellTyped st) (hc : CachedAs m q M (toSize count))
    (hside : OnQueue m code q → (M ≤ Int32.ofNat count ↔ M.toInt ≤ listLength st q))
    (hb : (listLength st q : Int) ≤ max M.toInt start)
    (he : (pushMsg code data).eval (Talk.exec quiet clock uuid) (.idle m (0, st)) = some (x, w)) :
    w.Idle ∧ (OnQueue m code q → (x = MSG_LIMIT ↔ M.toInt ≤ listLength st q) ∧
      ((listLength st q : Int) < M.toInt → x = SUCCESS ∧
        w.peer.2.list (getQueueMsgName q.bytes) = st.list (getQueueMsgName q.bytes) ++ [data])) ∧
    (listLength w.peer.2 q : Int) ≤ max M.toInt start := by
  obtain ⟨hidle, hcases⟩ := pushMsg_quiet hst he
  refine ⟨hidle, ?_⟩
  rcases hcases with ⟨hnone, hstore⟩ | ⟨item, queue, hi, hq, hcases⟩
  · refine ⟨?_, by rw [hstore]; exact hb⟩
    rintro ⟨item, hi, rfl⟩
    obtain ⟨queue, hq, -⟩ := hc
    cases (hnone item hi).symm.trans hq
  · by_cases hon : item.queueName = q
    · subst hon
      have hfull := (hc.full_iff hq hM).trans (hside ⟨item, hi, rfl⟩)
      rcases hcases with ⟨hf, hx, hstore⟩ | ⟨hf, hx, hdel⟩
      · have hle := hfull.mp hf
        refine ⟨fun _ => ⟨iff_of_true hx hle, fun hlt => absurd hle (not_le.mpr hlt)⟩, ?_⟩
        rw [hstore]
        exact hb
      · have hlt : (listLength st item.queueName : Int) < M.toInt :=
          not_le.mp fun hle => hf (hfull.mpr hle)
        have hne : x ≠ MSG_LIMIT := by
          rw [hx]
          decide
        have hty : queue.option.msgType ≠ SUB2PUB := by
          obtain ⟨queue', hq', hty, -⟩ := hc
          cases hq.symm.trans hq'
          rw [hty]
          decide
        unfold Delivered at hdel
        rw [if_neg hty] at hdel
        refine ⟨fun _ => ⟨iff_of_false hne (not_le.mpr hlt), fun _ => ⟨hx, hdel.1⟩⟩, ?_⟩
        have hlen : listLength w.peer.2 item.queueName = listLength st item.queueName + 1 := by
          unfold listLength
          rw [hdel.1, List.length_append]
          rfl
        rw [hlen]
        omega
    · refine ⟨?_, ?_⟩
      · rintro ⟨item', hi', hq'⟩
        cases hi.symm.trans hi'
        exact absurd hq' hon
      · have hlist : w.peer.2.list (getQueueMsgName q.bytes) =
            st.list (getQueueMsgName q.bytes) := by
          rcases hcases with ⟨-, -, hstore⟩ | ⟨-, -, hdel⟩
          · rw [hstore]
          · exact hdel.other hon
        unfold listLength at hb ⊢
        rw [hlist]
        exact hb

section Step

variable {s s' : Server} {e : Invocation} {n₀ : Nat} {x : Ret} {w : Talk (Nat × Store)}

/-- **One call.** -/
theorem Limiting.call (hM : 0 < M) (h : Limiting q M n₀ s) (hg : SameSide q M s e)
    (he : (callProg e.op).eval (Talk.exec quiet e.clock e.uuid) (.idle s.mgr (0, s.redis)) =
      some (x, w)) (hunread : w.Idle → ∀ t, (s.returned e x w).unread t = []) :
    Limiting q M n₀ (s.returned e x w) := by
  obtain ⟨hcall, -, hside⟩ := hg
  -- the calls before this one
  have hpushes : (∀ code data, e.op = .pushMsg code data → OnQueue s.mgr code q →
      (x.1 = MSG_LIMIT ↔ M.toInt ≤ listLength s.redis q) ∧
      ((listLength s.redis q : Int) < M.toInt → x.1 = SUCCESS ∧
        w.peer.2.list (getQueueMsgName q.bytes) =
          s.redis.list (getQueueMsgName q.bytes) ++ [data])) →
      (listLength w.peer.2 q : Int) ≤ max M.toInt n₀ →
      Limited q M n₀ (s.returned e x w) := by
    intro hpush hb
    refine ⟨fun d hd => ?_, hb⟩
    rcases List.mem_append.mp hd with hd | hd
    · exact h.limited.pushes d hd
    · rw [List.mem_singleton.mp hd]
      exact hpush
  match hop : e.op, hcall with
  | .pushMsg code data, _ =>
    rw [hop] at he
    have hp : Performs Tame IsLookup (callProg (.pushMsg code data)) :=
      (pushMsg_performs trivial).bind fun _ => trivial
    obtain ⟨hst, hlimit, hcached⟩ := HasLimit.performs (w := .idle s.mgr (0, s.redis))
      h.sane h.limit h.cached hp he
    rw [callProg, Prog.eval_bind] at he
    obtain ⟨⟨ret, w₁⟩, hpush, he⟩ := Option.bind_eq_some_iff.mp he
    cases he
    obtain ⟨hidle, hlim, hb⟩ := pushMsg_limited hM h.sane.typed h.cached (hside code data hop)
      h.limited.bound hpush
    refine ⟨hst, hlimit, ?_, hunread hidle, hpushes ?_ hb⟩
    · rw [loadedLength_returned, if_neg (by rw [hop]; exact fun h => (by cases h))]
      exact hcached
    · intro code' data' hop' hon
      rw [hop] at hop'
      cases hop'
      exact hlim hon
  | .popMsg code, _ =>
    rw [hop] at he
    have hp : Performs Tame IsLookup (callProg (.popMsg code)) :=
      (popMsg_performs trivial).mono fun _ hc => hc.tame
    obtain ⟨hst, hlimit, hcached⟩ := HasLimit.performs (w := .idle s.mgr (0, s.redis))
      h.sane h.limit h.cached hp he
    have hshort := popMsg_shortens (q := q) (w := .idle s.mgr (0, s.redis)) h.sane.typed he
    have hidle := Agrees.idle (P := refusing fun _ => none) (popMsg_agrees code) he rfl
    refine ⟨hst, hlimit, ?_, hunread hidle, hpushes ?_ ?_⟩
    · rw [loadedLength_returned, if_neg (by rw [hop]; exact fun h => (by cases h))]
      exact hcached
    · intro code' data' hop'
      rw [hop] at hop'
      cases hop'
    · have hb := h.limited.bound
      have hshort' : listLength w.peer.2 q ≤ listLength s.redis q := hshort
      omega
  | .loadQueueMeta, _ =>
    rw [hop] at he
    obtain ⟨table, ht, hidle, hstore, hmgr⟩ := loadQueueMeta_quiet h.sane he
    refine ⟨by rw [Server.returned, hstore]; exact h.sane,
      by rw [Server.returned, hstore]; exact h.limit, ?_, hunread hidle,
      hpushes ?_ (by rw [hstore]; exact h.limited.bound)⟩
    · rw [loadedLength_returned, if_pos hop, Server.returned, hmgr]
      exact h.limit.cachedAs ht s.mgr
    · intro code' data' hop'
      rw [hop] at hop'
      cases hop'

theorem Limiting.step (hM : 0 < M) (h : Limiting q M n₀ s) (hg : SameSide q M s e)
    (hs : s.step e = some s') : Limiting q M n₀ s' := by
  obtain ⟨x, w, he, rfl, hunread⟩ := Server.step_quiet hg.2.1 h.unread hs
  exact h.call hM hg he hunread

/-- The start: a manager with any sessions loads the store. -/
theorem Limiting.start {m : QueueMgr} {st : Store} (hst : Sane st) (hlim : HasLimit st q M)
    (hop : e.op = .loadQueueMeta) (hr : Unrefused e) (hs : (Server.boot m st).step e = some s) :
    Limiting q M (listLength st q) s := by
  obtain ⟨x, w, he, rfl, hunread⟩ := Server.step_quiet hr (fun _ => rfl) hs
  rw [hop] at he
  obtain ⟨table, ht, hidle, hstore, hmgr⟩ := loadQueueMeta_quiet hst he
  refine ⟨by rw [Server.returned, hstore]; exact hst, by rw [Server.returned, hstore]; exact hlim,
    ?_, hunread hidle, fun d hd => ?_, ?_⟩
  · rw [loadedLength_returned, if_pos hop, Server.returned, hmgr]
    exact hlim.cachedAs ht m
  · rw [List.mem_singleton.mp hd]
    intro code data hop'
    rw [hop] at hop'
    cases hop'
  · rw [Server.returned, hstore]
    exact le_max_right _ _

end Step

/-- **The message limit is enforced** in every state of every run in which messages are pushed to
the queue only while its length is on the same side of the limit as it was at the last load. -/
theorem limited_of_sameSide (q : CStr) (M : Int32) (hM : 0 < M) (m : QueueMgr) (st : Store)
    (hst : Sane st) (hlim : HasLimit st q M) (e₀ : Invocation) (hop : e₀.op = .loadQueueMeta)
    (hr : Unrefused e₀) (s₀ s : Server) (h₀ : (Server.boot m st).step e₀ = some s₀)
    (hs : Machine.Reach Server.step (SameSide q M) s₀ s) : Limited q M (listLength st q) s :=
  (hs.inv (Limiting.start hst hlim hop hr h₀) fun h hg hs => h.step hM hg hs).limited

/-! ## Two runs -/

/-- The arguments by which a queue of one message was created. -/
def oneMessage : OpenArgs :=
  ⟨⟨ascii "q", noNul_q⟩, PEER2PEER, 0, 1, .publisher, 1, ⟨ascii "c", noNul_c⟩⟩

/-- A store with that queue. -/
def oneMessageStore : Store := createStore oneMessage 100 fun _ => none

theorem sane_oneMessageStore : Sane oneMessageStore := shaped_empty.toSane.create oneMessage 100

theorem hasLimit_oneMessageStore : HasLimit oneMessageStore ⟨ascii "q", noNul_q⟩ 1 := by
  refine ⟨?_, oneMessage.option, ?_, rfl, rfl⟩
  · show _ ∈ (createStore oneMessage 100 fun _ => none).members allQueueName
    rw [members_createStore oneMessage 100 wellTyped_empty]
    exact mem_sadd.mpr (.inr rfl)
  · have hhash : oneMessageStore.hash (getQueueMetaName (ascii "q")) =
        hmset [] (metaFields oneMessage 100) :=
      (hash_createStore oneMessage 100 wellTyped_empty (ascii "q")).trans (if_pos rfl)
    show Holds (oneMessageStore.hash (getQueueMetaName (ascii "q"))) _
    rw [hhash]
    exact .metaFields _ oneMessage 100

/-- The message `hello` is pushed in the session `[1]`. -/
def pushCall : Invocation :=
  ⟨0, .pushMsg [1] (ascii "hello"), fun _ => 100, Uuid.ofByte 0, fun _ => none⟩

/-- A message is pushed, the metadata are loaded again, and the next message is refused. -/
theorem limited_reload : ∃ s₀ s₁ s₂ s,
    (Server.boot oneSession oneMessageStore).step loadCall = some s₀ ∧
    s₀.step pushCall = some s₁ ∧ s₁.step loadCall = some s₂ ∧ s₂.step pushCall = some s ∧
    s.log.map (fun d => d.ret.1) = [0, 0, 0, MSG_LIMIT] ∧
    Limited ⟨ascii "q", noNul_q⟩ 1 0 s := by
  refine ⟨_, _, _, _, rfl, rfl, rfl, rfl, rfl, ?_⟩
  refine limited_of_sameSide ⟨ascii "q", noNul_q⟩ 1 (by decide) oneSession oneMessageStore
    sane_oneMessageStore hasLimit_oneMessageStore loadCall rfl rfl _ _ rfl
    (.step pushCall (.step loadCall (.step pushCall .init ⟨trivial, rfl, fun _ _ _ _ => ?_⟩ rfl)
      ⟨trivial, rfl, fun _ _ h => (by cases h)⟩ rfl) ⟨trivial, rfl, fun _ _ _ _ => ?_⟩ rfl)
  · exact iff_of_false (by decide) (by decide)
  · exact iff_of_true (by decide) (by decide)

/-- A queue of one message accepts two. -/
theorem limit_not_enforced : ¬ ∀ (q : CStr) (M : Int32), 0 < M → ∀ (m : QueueMgr) (st : Store),
    Sane st → HasLimit st q M → ∀ e₀ : Invocation, e₀.op = .loadQueueMeta → Unrefused e₀ →
    ∀ s₀ s : Server, (Server.boot m st).step e₀ = some s₀ →
    Machine.Reach Server.step (fun _ e => MessageCall e.op ∧ Unrefused e) s₀ s →
    Limited q M (listLength st q) s := by
  intro h
  have hlim := h ⟨ascii "q", noNul_q⟩ 1 (by decide) oneSession oneMessageStore
    sane_oneMessageStore hasLimit_oneMessageStore loadCall rfl rfl _ _ rfl
    (.step pushCall (.step pushCall .init ⟨trivial, rfl⟩ rfl) ⟨trivial, rfl⟩ rfl)
  exact absurd hlim.bound (by decide)

end Domq.Mq
